import PagedMap.Proofs.Pager.Stopping
import PagedMap.Proofs.Tree.Shadowing

/-!
# Points on the way

A computation with a pager that stops goes the way of the same computation with the pager inside,
until it ends or is stopped. What changes in one direction only does so from every point on: a
transaction never gives up a copy before it ends.
-/

namespace PagedMap

open HoldingM (held hold within)

/-- How states are taken to a pager that stops, and what changes in one direction only. -/
structure Course (T S : Type) where
  serving : Nat → T → S
  Onward : T → T → Prop
  refl : ∀ state, Onward state state
  trans : ∀ {first second third}, Onward first second → Onward second third → Onward first third

namespace Course

variable {T S ε δ α β : Type} {course : Course T S}

/-- With a pager that stops, a computation ends as it does with the pager inside, or it is stopped
at a point on the way. -/
structure Follows (course : Course T S) (stopping : EStateM ε S α) (whole : EStateM ε T α)
    (state : T) : Prop where
  onward : course.Onward state (lastState (whole state))
  ends : ∀ calls, Ends (stopping (course.serving calls state))
    (fun value point => ∃ after left, point = course.serving left after ∧
      whole state = .ok value after)
    (fun failure point => (∃ after left, point = course.serving left after ∧
        whole state = .error failure after) ∨
      ∃ halfway, point = course.serving 0 halfway ∧ course.Onward state halfway ∧
        course.Onward halfway (lastState (whole state)))

namespace Follows

variable {state : T} {stopping : EStateM ε S α} {whole : EStateM ε T α}

theorem pure (value : α) :
    Follows course (Pure.pure value : EStateM ε S α) (Pure.pure value : EStateM ε T α) state :=
  ⟨course.refl state, fun calls => ⟨state, calls, rfl, rfl⟩⟩

theorem throw (failure : ε) :
    Follows course (MonadExcept.throw failure : EStateM ε S α)
      (MonadExcept.throw failure : EStateM ε T α) state :=
  ⟨course.refl state, fun calls => Or.inl ⟨state, calls, rfl, rfl⟩⟩

theorem lift (outcome : Except Fault α) :
    Follows course (liftM outcome : EStateM (Failure ε) S α)
      (liftM outcome : EStateM (Failure ε) T α) state := by
  cases outcome with
  | ok value => exact pure value
  | error fault => exact throw (Failure.fault fault)

/-- A computation that follows another one step by step is stopped in the first step or in the
second. -/
theorem bind {later : α → EStateM ε S β} {next : α → EStateM ε T β}
    (first : Follows course stopping whole state)
    (continues : ∀ value after, whole state = .ok value after →
      Follows course (later value) (next value) after) :
    Follows course (stopping >>= later) (whole >>= next) state := by
  have further : course.Onward (lastState (whole state)) (lastState ((whole >>= next) state)) := by
    cases given : whole state with
    | ok value after =>
        rw [bind_eq_of_ok given]
        exact (continues value after given).onward
    | error failure after =>
        rw [bind_eq_of_error given]
        exact course.refl after
  refine ⟨course.trans first.onward further, fun calls => ?_⟩
  apply Ends.bind (Ends.mono (first.ends calls) (fun _ _ => id) ?_)
  · rintro value _ ⟨after, left, rfl, given⟩
    have onward := first.onward
    rw [given] at onward
    apply Ends.mono ((continues value after given).ends left)
    · rintro result _ ⟨last, rest, rfl, ended⟩
      exact ⟨last, rest, rfl, (bind_eq_of_ok given next).trans ended⟩
    · rintro failure _ (⟨last, rest, rfl, ended⟩ | ⟨halfway, rfl, before, behind⟩)
      · exact Or.inl ⟨last, rest, rfl, (bind_eq_of_ok given next).trans ended⟩
      · refine Or.inr ⟨halfway, rfl, course.trans onward before, ?_⟩
        rw [bind_eq_of_ok given]
        exact behind
  · rintro failure _ (⟨after, left, rfl, given⟩ | ⟨halfway, rfl, before, behind⟩)
    · exact Or.inl ⟨after, left, rfl, bind_eq_of_error given next⟩
    · exact Or.inr ⟨halfway, rfl, before, course.trans behind further⟩

theorem map (change : α → β) (follows : Follows course stopping whole state) :
    Follows course (do return change (← stopping)) (do return change (← whole)) state :=
  follows.bind fun _ _ _ => pure _

end Follows

/-! ## Calls of the pager -/

section Pagers

variable {σ : Type} {pager : σ}

def pagers : Course σ (Stopping σ) where
  serving calls inner := ⟨inner, calls⟩
  Onward _ _ := True
  refl _ := trivial
  trans _ _ := trivial

def sessions : Course (Session σ) (Session (Stopping σ)) where
  serving := Session.serving
  Onward _ _ := True
  refl _ := trivial
  trans _ _ := trivial

/-- A call that is served does what the inner pager does, and one that is refused stops before
it. -/
theorem serve_follows (operation : EStateM PagerError σ α) :
    Follows pagers (Stopping.serve operation) operation pager := by
  refine ⟨trivial, fun calls => ?_⟩
  cases calls with
  | zero => exact Or.inr ⟨pager, rfl, trivial, trivial⟩
  | succ left =>
      change Ends (Stopping.serve operation ⟨pager, left + 1⟩) _ _
      apply Pager.onInner_ends
      apply Ends.mono (Ends.self operation pager)
      · rintro value inner given
        exact ⟨inner, left, rfl, given⟩
      · rintro error inner given
        exact Or.inl ⟨inner, left, rfl, given⟩

variable {session : Session σ}

/-- If one device follows another, so do the sessions on the two. -/
theorem onDevice_follows {stopping : EStateM ε (Stopping σ) α} {whole : EStateM ε σ α}
    (follows : Follows pagers stopping whole session.device) :
    Follows sessions (SessionM.onDevice stopping) (SessionM.onDevice whole) session := by
  refine ⟨trivial, fun calls => ?_⟩
  apply SessionM.onDevice_ends
  apply Ends.mono (follows.ends calls)
  · rintro value _ ⟨inner, left, rfl, given⟩
    refine ⟨{ session with device := inner }, left, rfl, ?_⟩
    simp only [SessionM.onDevice]
    rw [given]
  · rintro error _ (⟨inner, left, rfl, given⟩ | ⟨inner, rfl, _, _⟩)
    · refine Or.inl ⟨{ session with device := inner }, left, rfl, ?_⟩
      simp only [SessionM.onDevice]
      rw [given]
    · exact Or.inr ⟨{ session with device := inner }, rfl, trivial, trivial⟩

/-- Naming errors otherwise makes no difference to where a pager stops. -/
theorem relabel_follows {wrap : δ → ε} {stopping : SessionM (Stopping σ) δ α}
    {whole : SessionM σ δ α} (follows : Follows sessions stopping whole session) :
    Follows sessions (SessionM.relabel wrap stopping) (SessionM.relabel wrap whole) session := by
  refine ⟨trivial, fun calls => ?_⟩
  apply SessionM.relabel_ends
  apply Ends.mono (follows.ends calls)
  · rintro value _ ⟨after, left, rfl, given⟩
    refine ⟨after, left, rfl, ?_⟩
    simp only [SessionM.relabel]
    rw [given]
  · rintro (error | fault) _ (⟨after, left, rfl, given⟩ | ⟨halfway, rfl, _, _⟩)
    · refine Or.inl ⟨after, left, rfl, ?_⟩
      simp only [SessionM.relabel]
      rw [given]
    · exact Or.inr ⟨halfway, rfl, trivial, trivial⟩
    · refine Or.inl ⟨after, left, rfl, ?_⟩
      simp only [SessionM.relabel]
      rw [given]
    · exact Or.inr ⟨halfway, rfl, trivial, trivial⟩

theorem report_follows (event : Event) :
    Follows sessions (SessionM.report event : SessionM (Stopping σ) ε Unit)
      (SessionM.report event : SessionM σ ε Unit) session :=
  ⟨trivial, fun calls => ⟨_, calls, rfl, rfl⟩⟩

variable [Pager σ]

theorem readPage_follows (index : PageIndex) :
    Follows sessions (TreeM.readPage index : TreeM (Stopping σ) Page) (TreeM.readPage index)
      session :=
  relabel_follows (onDevice_follows ((serve_follows _).map _))

theorem writePage_follows (page : Page) (index : PageIndex) :
    Follows sessions (TreeM.writePage page index : TreeM (Stopping σ) Unit)
      (TreeM.writePage page index) session :=
  relabel_follows (onDevice_follows ((serve_follows _).map _))

theorem append_follows (page : Page) :
    Follows sessions (SessionM.onDevice (Pager.appendPage page) : SessionM (Stopping σ) _ _)
      (SessionM.onDevice (Pager.appendPage page)) session :=
  onDevice_follows (serve_follows _)

theorem sync_follows :
    Follows sessions (TreeM.sync : TreeM (Stopping σ) Unit) TreeM.sync session :=
  relabel_follows (onDevice_follows (serve_follows _))

theorem readView_follows (index : PageIndex) :
    Follows sessions (TreeM.readView index : TreeM (Stopping σ) View) (TreeM.readView index)
      session := by
  apply (readPage_follows index).bind
  intro page after _
  cases page.view with
  | ok view => exact .pure view
  | error unknown => exact .throw _

theorem descendFrom_follows (choose : Node → Except Fault Int) (limit : Nat) (index : PageIndex)
    (path : List Step) :
    Follows sessions (Tree.descendFrom choose limit index path : TreeM (Stopping σ) Descent)
      (Tree.descendFrom choose limit index path) session := by
  induction limit generalizing index path session with
  | zero => exact .throw _
  | succ limit ih =>
      apply (readView_follows index).bind
      intro view after _
      cases view with
      | node node =>
          apply Follows.bind (.lift _)
          intro taken _ _
          apply Follows.bind (.lift _)
          intro child _ _
          exact ih child _
      | leaf leaf => exact .pure _
      | blank => exact .throw _
      | anchor page => exact .throw _
      | overflow overflow => exact .throw _

/-- Where a pager stops while a value is spilled is on the way of spilling it. -/
theorem spill_follows (room : Nat) (rest : Bytes) (head : PageIndex) (pages : Nat)
    (session : Session σ) :
    Follows sessions (Value.spill room rest head pages : SessionM (Stopping σ) _ _)
      (Value.spill room rest head pages) session := by
  unfold Value.spill
  split
  · exact .pure _
  · split
    · exact .throw _
    next notEmpty =>
      split
      · exact .throw _
      next filled remaining stored =>
        have shorter : remaining.length < rest.length := Overflow.length_rest_lt notEmpty stored
        apply (append_follows _).bind
        intro index after _
        split
        · apply Follows.bind (.throw _)
          intro _ _ given
          contradiction
        · exact spill_follows room remaining index (pages + 1) after
termination_by rest.length

theorem encode_follows (keySize : Nat) (value : Bytes) :
    Follows sessions (Value.encode keySize value : SessionM (Stopping σ) _ _)
      (Value.encode keySize value) session := by
  simp only [Value.encode]
  apply Follows.bind (.lift _)
  intro tagged _ _
  apply Follows.bind (.lift _)
  intro size _ _
  split
  · exact .pure _
  · apply Follows.bind (.lift _)
    intro room _ _
    apply (spill_follows room value 0 0 _).bind
    intro spilled _ _
    exact (report_follows _).bind fun _ _ _ => .pure _

theorem follow_follows (limit : Nat) (next : PageIndex) (value : Bytes) :
    Follows sessions (Value.follow limit next value : TreeM (Stopping σ) Bytes)
      (Value.follow limit next value) session := by
  induction limit generalizing next value session with
  | zero =>
      unfold Value.follow
      split
      · exact .pure _
      · exact .throw _
  | succ limit ih =>
      unfold Value.follow
      split
      · exact .pure _
      · apply (readView_follows next).bind
        intro view after _
        cases view with
        | overflow part =>
            apply Follows.bind (.lift _)
            intro data _ _
            exact ih part.next _
        | blank => exact .throw _
        | anchor page => exact .throw _
        | node node => exact .throw _
        | leaf leaf => exact .throw _

theorem decode_follows (encoded : Bytes) :
    Follows sessions (Value.decode encoded : TreeM (Stopping σ) Bytes) (Value.decode encoded)
      session := by
  simp only [Value.decode]
  cases encoded with
  | nil => exact .throw _
  | cons tag rest =>
      dsimp only
      split
      · exact .pure _
      · split
        · exact .throw _
        · split
          · exact .throw _
          · apply Follows.bind (relabel_follows (onDevice_follows (serve_follows _)))
            intro count after _
            exact follow_follows count _ _

theorem get?_follows (tree : Tree) (key : Bytes) :
    Follows sessions (tree.get? key : TreeM (Stopping σ) _) (tree.get? key) session := by
  apply (descendFrom_follows _ _ _ _).bind
  intro found _ _
  apply Follows.bind (.lift _)
  intro place _ _
  split
  · apply Follows.bind (.lift _)
    intro encoded _ _
    exact (decode_follows encoded).map _
  · exact .pure _

theorem contains_follows (tree : Tree) (key : Bytes) :
    Follows sessions (tree.contains key : TreeM (Stopping σ) _) (tree.contains key) session := by
  apply (descendFrom_follows _ _ _ _).bind
  intro found _ _
  exact Follows.map _ (.lift _)

end Pagers

/-! ## Transactions -/

section Transactions

variable {σ : Type} {holding : Holding Transaction σ}

/-- A transaction on its way gives up no copy. -/
def transactions : Course (Holding Transaction σ) (Holding Transaction (Stopping σ)) where
  serving := Holding.serving
  Onward before after := ∀ shadow ∈ before.held.shadows, shadow ∈ after.held.shadows
  refl _ _ := id
  trans first second shadow member := second shadow (first shadow member)

/-- What is done within a transaction has its points where the pages have theirs. -/
theorem within_follows {stopping : TreeM (Stopping σ) α} {whole : TreeM σ α}
    (follows : Follows sessions stopping whole holding.session) :
    Follows transactions (within stopping) (within whole) holding := by
  have same : (lastState (within whole holding)).held = holding.held := by
    simp only [within]
    cases whole holding.session <;> rfl
  constructor
  · intro shadow member
    rw [same]
    exact member
  · intro calls
    apply HoldingM.within_ends
    apply Ends.mono (follows.ends calls)
    · rintro value _ ⟨session, left, rfl, given⟩
      refine ⟨{ holding with session }, left, rfl, ?_⟩
      simp only [within]
      rw [given]
    · rintro failure _ (⟨session, left, rfl, given⟩ | ⟨session, rfl, _, _⟩)
      · refine Or.inl ⟨{ holding with session }, left, rfl, ?_⟩
        simp only [within]
        rw [given]
      · refine Or.inr ⟨{ holding with session }, rfl, fun _ => id, ?_⟩
        intro shadow member
        rw [same]
        exact member

theorem Follows.held_bind {later : Transaction → TransactionM (Stopping σ) α}
    {next : Transaction → TransactionM σ α}
    (follows : Follows transactions (later holding.held) (next holding.held) holding) :
    Follows transactions (held >>= later) (held >>= next) holding :=
  ⟨follows.onward, follows.ends⟩

theorem requireActive_follows :
    Follows transactions (Transaction.requireActive : TransactionM (Stopping σ) Unit)
      Transaction.requireActive holding := by
  simp only [Transaction.requireActive]
  apply Follows.held_bind
  split
  · exact .throw _
  · exact .pure _

theorem setAnchor_follows (anchor : Anchor) :
    Follows transactions (Transaction.setAnchor anchor : TransactionM (Stopping σ) Unit)
      (Transaction.setAnchor anchor) holding :=
  ⟨fun _ => id, fun calls => ⟨_, calls, rfl, rfl⟩⟩

variable [Pager σ]

/-- Where a pager stops while a page is copied is on the way of copying it. -/
theorem shadow_follows (index : PageIndex) :
    Follows transactions (Transaction.shadow index : TransactionM (Stopping σ) Unit)
      (Transaction.shadow index) holding := by
  simp only [Transaction.shadow]
  apply Follows.held_bind
  split
  · exact .pure _
  · apply (within_follows (readPage_follows index)).bind
    intro page first reads
    apply (within_follows (relabel_follows (append_follows page))).bind
    intro copy second appends
    have held_eq := ((HoldingM.within_holds _ _).of_ok appends).trans
      ((HoldingM.within_holds _ _).of_ok reads)
    refine ⟨?_, fun calls => ⟨_, calls, rfl, rfl⟩⟩
    intro shadow member
    rw [held_eq] at member
    exact Shadows.mem_insert.mpr (Or.inr member)

theorem overwrite_follows (index : PageIndex) (page : Page) :
    Follows transactions (Transaction.overwrite index page : TransactionM (Stopping σ) Unit)
      (Transaction.overwrite index page) holding := by
  apply (shadow_follows index).bind
  intro _ after _
  exact within_follows (writePage_follows page index)

theorem writeAnchor_follows :
    Follows transactions (Transaction.writeAnchor : TransactionM (Stopping σ) Unit)
      Transaction.writeAnchor holding := by
  simp only [Transaction.writeAnchor]
  exact Follows.held_bind (within_follows (writePage_follows _ _))

theorem growRoot_follows (left : PageIndex) (separator : Bytes) (right : PageIndex) :
    Follows transactions
      (Transaction.growRoot left separator right : TransactionM (Stopping σ) Unit)
      (Transaction.growRoot left separator right) holding := by
  simp only [Transaction.growRoot]
  apply Follows.bind (.lift _)
  intro node _ _
  apply (within_follows (relabel_follows (append_follows _))).bind
  intro root _ _
  apply Follows.held_bind
  apply (shadow_follows _).bind
  intro _ _ _
  apply (setAnchor_follows _).bind
  intro _ _ _
  apply writeAnchor_follows.bind
  intro _ _ _
  exact within_follows (report_follows _)

/-- By induction on the way up: each node is read, overwritten, and perhaps gets a sibling, in the
same calls. -/
theorem propagate_follows (path : List Step) (child : PageIndex) (separator : Bytes)
    (right : PageIndex) :
    Follows transactions
      (Transaction.propagate path child separator right : TransactionM (Stopping σ) Unit)
      (Transaction.propagate path child separator right) holding := by
  induction path generalizing child separator right holding with
  | nil => exact growRoot_follows child separator right
  | cons step above ih =>
      simp only [Transaction.propagate]
      apply Follows.bind (.lift _)
      intro node _ _
      apply Follows.bind (.lift _)
      intro lacksBytes _ _
      apply Follows.held_bind
      split
      · apply Follows.bind (.lift _)
        intro wider _ _
        exact overwrite_follows _ _
      · apply Follows.bind (.lift _)
        intro midpoint _ _
        apply Follows.bind (.lift _)
        intro half _ _
        apply Follows.bind (.lift _)
        intro sides _ _
        apply (within_follows (relabel_follows (append_follows _))).bind
        intro sibling _ _
        apply (overwrite_follows _ _).bind
        intro _ _ _
        apply (within_follows (report_follows _)).bind
        intro _ _ _
        exact ih step.index sides.separator sibling

theorem splitLeaf_follows (found : Descent) (place : Place) (key encoded : Bytes)
    (lacksBytes : Bool) :
    Follows transactions
      (Transaction.splitLeaf found place key encoded lacksBytes : TransactionM (Stopping σ) Unit)
      (Transaction.splitLeaf found place key encoded lacksBytes) holding := by
  simp only [Transaction.splitLeaf]
  apply Follows.bind (.lift _)
  intro midpoint _ _
  apply Follows.bind (.lift _)
  intro half _ _
  apply Follows.bind (.lift _)
  rintro ⟨left, right⟩ _ _
  apply (within_follows (relabel_follows (append_follows _))).bind
  intro rightIndex _ _
  apply (overwrite_follows _ _).bind
  intro _ _ _
  apply (within_follows (report_follows _)).bind
  intro _ _ _
  apply Follows.bind (.lift _)
  intro separator _ _
  exact propagate_follows found.path found.index separator rightIndex

/-- Where a pager stops while an entry is written is on the way of writing it. -/
theorem put_follows (key value : Bytes) :
    Follows transactions (Transaction.put key value : TransactionM (Stopping σ) Unit)
      (Transaction.put key value) holding := by
  simp only [Transaction.put]
  apply Follows.held_bind
  apply (within_follows (descendFrom_follows _ _ _ _)).bind
  intro found _ _
  apply Follows.bind (.lift _)
  intro place _ _
  apply (within_follows (relabel_follows (encode_follows _ _))).bind
  intro encoded _ _
  split
  · apply Follows.bind (.lift _)
    intro full _ _
    split
    · exact splitLeaf_follows found place key encoded true
    · apply Follows.bind (.lift _)
      intro leaf _ _
      exact overwrite_follows _ _
  · apply Follows.bind (.lift _)
    intro lacksBytes _ _
    split
    · exact splitLeaf_follows found place key encoded lacksBytes
    · apply Follows.bind (.lift _)
      intro leaf _ _
      exact overwrite_follows _ _

theorem makeDurable_follows :
    Follows transactions (Transaction.makeDurable : TransactionM (Stopping σ) Unit)
      Transaction.makeDurable holding := by
  simp only [Transaction.makeDurable]
  apply Follows.held_bind
  apply (shadow_follows _).bind
  intro _ _ _
  apply Follows.bind (.lift _)
  intro sequence _ _
  apply (setAnchor_follows _).bind
  intro _ _ _
  apply writeAnchor_follows.bind
  intro _ _ _
  exact within_follows sync_follows

omit [Pager σ] in
/-- A point on the way of a transaction has the copies from before, and what it has is there at the
end. -/
theorem Follows.shadows {stopping : TransactionM (Stopping σ) α} {whole : TransactionM σ α}
    (follows : Follows transactions stopping whole holding) (calls : Nat) :
    (∀ shadow ∈ holding.held.shadows, shadow ∈ (stopAfter calls stopping holding).held.shadows) ∧
      ∀ shadow ∈ (stopAfter calls stopping holding).held.shadows,
        shadow ∈ (lastState (whole holding)).held.shadows := by
  have onward := follows.onward
  have ends := follows.ends calls
  simp only [stopAfter]
  change Ends (stopping (holding.serving calls)) _ _ at ends
  revert ends
  cases stopping (holding.serving calls) with
  | ok value point =>
      rintro ⟨after, left, rfl, given⟩
      rw [given] at onward ⊢
      exact ⟨onward, fun _ => id⟩
  | error failure point =>
      rintro (⟨after, left, rfl, given⟩ | ⟨halfway, rfl, before, behind⟩)
      · rw [given] at onward ⊢
        exact ⟨onward, fun _ => id⟩
      · exact ⟨before, behind⟩

end Transactions

end Course

end PagedMap
