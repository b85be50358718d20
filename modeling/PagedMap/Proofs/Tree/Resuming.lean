import PagedMap.Proofs.Pager.Flaky
import PagedMap.Proofs.Tree.Iterations
import PagedMap.Proofs.Tree.Runs

/-!
# Cursors when the pager fails

Any read for a cursor may fail, in the middle of a long value as well as on the way to the next
leaf. The cursor has then not passed the entry that it was about to pass, so that advancing it again
and again gives every entry once, in order, however many failures there are in between. Once the
pager fails no more, no call fails any more either, whatever failed before. What stops at errors
ends as advancing does up to the first error, and gives nothing from then on.
-/

namespace PagedMap

namespace Cursor

variable {σ : Type} {entries rest : List Entry}

/-- What a call on a cursor ends with. -/
abbrev Outcome := Except (Failure TreeError) (Option Entry)

/-- What a call on a cursor ends with, each time that it is made. -/
def outcomes (call : CursorM σ (Option Entry)) : Nat → Holding Cursor σ → List Outcome
  | 0, _ => []
  | more + 1, holding => outcomeOf (call holding) :: outcomes call more (lastState (call holding))

/-- What a call leaves behind when it has been made so many times. -/
def repeated (call : CursorM σ (Option Entry)) : Nat → Holding Cursor σ → Holding Cursor σ
  | 0, holding => holding
  | more + 1, holding => repeated call more (lastState (call holding))

/-- Entries are given one after the other, with failures of the pager in between, and nothing is
given ever after. -/
inductive Resumes : List Entry → List Outcome → Prop
  | cut (rest : List Entry) : Resumes rest []
  | passes {entry : Entry} {rest : List Entry} {results : List Outcome}
      (further : Resumes rest results) : Resumes (entry :: rest) (.ok (some entry) :: results)
  | fails {cause : PagerError} {rest : List Entry} {results : List Outcome}
      (again : Resumes rest results) : Resumes rest (.error (.error (.pager cause)) :: results)
  | ends (calls : Nat) : Resumes [] (List.replicate calls (.ok none))

/-- Entries are given one after the other, until the pager fails or there are no more, and nothing
is given ever after. -/
inductive Stops : List Entry → List Outcome → Prop
  | cut (rest : List Entry) : Stops rest []
  | passes {entry : Entry} {rest : List Entry} {results : List Outcome}
      (further : Stops rest results) : Stops (entry :: rest) (.ok (some entry) :: results)
  | fails {cause : PagerError} {rest : List Entry} (calls : Nat) :
      Stops rest (.error (.error (.pager cause)) :: List.replicate calls (.ok none))
  | ends (calls : Nat) : Stops [] (List.replicate calls (.ok none))

/-- The entry that a call gave, if it did. -/
def Outcome.entry? : Outcome → Option Entry
  | .ok given => given
  | .error _ => none

def Outcome.succeeded : Outcome → Bool
  | .ok _ => true
  | .error _ => false

/-- Calls end as they would, up to the first error, and after that they give nothing. -/
def untilError : List Outcome → List Outcome
  | [] => []
  | .ok given :: later => .ok given :: untilError later
  | .error failure :: later => .error failure :: List.replicate later.length (.ok none)

theorem untilError_replicate (given : Option Entry) (calls : Nat) :
    untilError (List.replicate calls (.ok given)) = List.replicate calls (.ok given) := by
  induction calls with
  | zero => rfl
  | succ calls ih => rw [List.replicate_succ, untilError, ih]

/-- What resumes after errors stops at the first one if it is cut off there. -/
theorem Resumes.stops {results : List Outcome} (resumes : Resumes entries results) :
    Stops entries (untilError results) := by
  induction resumes with
  | cut rest => exact .cut rest
  | passes _ ih => exact .passes ih
  | fails _ ih => exact .fails _
  | ends calls =>
      rw [untilError_replicate]
      exact .ends calls

/-- As many entries are given as calls succeed, as long as there are any. -/
theorem Resumes.given_eq {results : List Outcome} (resumes : Resumes entries results) :
    results.filterMap Outcome.entry? = entries.take (results.countP Outcome.succeeded) := by
  induction resumes with
  | cut rest => rfl
  | passes _ ih =>
      rw [List.countP_cons_of_pos rfl, List.take_succ_cons, ← ih]
      rfl
  | fails _ ih =>
      rw [List.filterMap_cons_none rfl, List.countP_cons_of_neg Bool.false_ne_true, ih]
  | ends calls => simp [Outcome.entry?]

variable [Pager σ] [AtomicPager σ] {limit : Nat} {pages : List Page} {tree : Tree}
  {outline : Outline} {contents : Contents}

omit [Pager σ] [AtomicPager σ] in
theorem outcomes_length (call : CursorM σ (Option Entry)) (calls : Nat)
    (holding : Holding Cursor σ) : (outcomes call calls holding).length = calls := by
  induction calls generalizing holding with
  | zero => rfl
  | succ calls ih => rw [outcomes, List.length_cons, ih]

omit [Pager σ] [AtomicPager σ] in
/-- Calls made later end as they do from what the earlier ones have left behind. -/
theorem outcomes_add (call : CursorM σ (Option Entry)) (calls more : Nat)
    (holding : Holding Cursor σ) : outcomes call (calls + more) holding =
      outcomes call calls holding ++ outcomes call more (repeated call calls holding) := by
  induction calls generalizing holding with
  | zero => rw [Nat.zero_add, outcomes, repeated, List.nil_append]
  | succ calls ih =>
      rw [Nat.succ_add, outcomes, ih, outcomes, repeated, List.cons_append]

omit [Pager σ] [AtomicPager σ] in
theorem outcomes_ended {call : CursorM σ (Option Entry)}
    (quiet : ∀ holding, holding.held.leaf = none → call holding = .ok none holding)
    {holding : Holding Cursor σ} (ended : holding.held.leaf = none) (calls : Nat) :
    outcomes call calls holding = List.replicate calls (.ok none) := by
  induction calls with
  | zero => rfl
  | succ calls ih =>
      rw [outcomes, quiet holding ended, List.replicate_succ]
      exact congrArg (Except.ok none :: ·) ih

omit [AtomicPager σ] in
theorem advance_ended (holding : Holding Cursor σ) (ended : holding.held.leaf = none) :
    advance tree holding = .ok none holding := by
  rcases holding with ⟨⟨leaf, passed⟩, session⟩
  subst ended
  rw [advance, advanceWithin.eq_def]
  rfl

omit [AtomicPager σ] in
theorem next_eq_of_ok {entry : Option Entry} {holding after : Holding Cursor σ}
    (given : advance tree holding = .ok entry after) : next tree holding = .ok entry after := by
  have nexts : next tree holding = EStateM.tryCatch (advance tree) _ holding := rfl
  delta EStateM.tryCatch at nexts
  rw [given] at nexts
  exact nexts

omit [AtomicPager σ] in
theorem next_eq_of_error {error : TreeError} {holding after : Holding Cursor σ}
    (given : advance tree holding = .error (.error error) after) :
    next tree holding =
      .error (.error error) { after with held := { after.held with leaf := none } } := by
  have nexts : next tree holding = EStateM.tryCatch (advance tree) _ holding := rfl
  delta EStateM.tryCatch at nexts
  rw [given] at nexts
  exact nexts

omit [AtomicPager σ] in
theorem next_ended (holding : Holding Cursor σ) (ended : holding.held.leaf = none) :
    next tree holding = .ok none holding :=
  next_eq_of_ok (advance_ended holding ended)

section

variable {cursor : Cursor} {rest : List Record}

/-- What one call does to a cursor in front of some records: there are none and it stays at the end,
or it gives the entry of the first one, or it fails and the cursor has passed none of them. -/
inductive Moves (tree : Tree) (outline : Outline) (contents : Contents) (cursor : Cursor)
    (session : Session σ) : List Record → Prop
  | ends {after : Holding Cursor σ} (advances : advance tree ⟨cursor, session⟩ = .ok none after)
      (still : session.Still after.session) (ended : after.held.leaf = none) :
      Moves tree outline contents cursor session []
  | passes {after : Holding Cursor σ} {record : Record} {rest : List Record}
      (advances : advance tree ⟨cursor, session⟩ = .ok (some (entryOf contents record)) after)
      (still : session.Still after.session) (further : Before outline after.held rest) :
      Moves tree outline contents cursor session (record :: rest)
  | fails {after : Holding Cursor σ} {cause : PagerError} {rest : List Record}
      (advances : advance tree ⟨cursor, session⟩ = .error (.error (.pager cause)) after)
      (denied : session.Denied (.error (.pager cause)) after.session)
      (again : Before outline after.held rest) :
      Moves tree outline contents cursor session rest

/-- Advancing a cursor does one of these things to it. -/
theorem advance_moves (retains : Retains limit pages tree.anchor outline contents)
    (stands : Before outline cursor rest) (session : Session σ) (pages_eq : session.pages = pages) :
    Moves tree outline contents cursor session rest := by
  have ends := advance_ends retains stands session pages_eq
  cases advances : advance tree ⟨cursor, session⟩ with
  | ok entry after =>
      rcases ends.of_ok advances with ⟨still, passes⟩
      cases passes with
      | none ended => exact .ends advances still ended
      | some known further =>
          rw [← entryOf_eq known] at advances
          exact .passes advances still further
  | error failure after =>
      rcases ends.of_error advances with ⟨denied, again⟩
      rcases denied.byPager with ⟨cause, rfl⟩
      exact .fails advances denied again

/-- Advancing a cursor again and again gives what is in front of it, whatever fails. -/
theorem advance_resumes (retains : Retains limit pages tree.anchor outline contents)
    (stands : Before outline cursor rest) (session : Session σ) (pages_eq : session.pages = pages)
    (calls : Nat) :
    Resumes (rest.map (entryOf contents)) (outcomes (advance tree) calls ⟨cursor, session⟩) := by
  induction calls generalizing cursor rest session with
  | zero => exact .cut _
  | succ calls ih =>
      rw [outcomes]
      cases advance_moves retains stands session pages_eq with
      | ends advances still ended =>
          simp only [advances, lastState, outcomes_ended advance_ended ended]
          exact .ends (calls + 1)
      | passes advances still further =>
          rw [advances, List.map_cons]
          exact .passes (ih further _ (still.pages_eq.trans pages_eq))
      | fails advances denied again =>
          rw [advances]
          exact .fails (ih again _ (denied.still.pages_eq.trans pages_eq))

/-- After any number of calls the cursor stands in front of some records, and no page has
changed. -/
theorem repeated_stands (retains : Retains limit pages tree.anchor outline contents)
    (stands : Before outline cursor rest) (session : Session σ) (pages_eq : session.pages = pages)
    (calls : Nat) : ∃ later, Before outline (repeated (advance tree) calls ⟨cursor, session⟩).held
      later ∧ (repeated (advance tree) calls ⟨cursor, session⟩).session.pages = pages := by
  induction calls generalizing cursor rest session with
  | zero => exact ⟨rest, stands, pages_eq⟩
  | succ calls ih =>
      rw [repeated]
      cases advance_moves retains stands session pages_eq with
      | @ends after advances still ended =>
          rw [advances]
          rcases after with ⟨⟨leaf, passed⟩, later⟩
          subst ended
          exact ih (.atEnd passed) later (still.pages_eq.trans pages_eq)
      | passes advances still further =>
          rw [advances]
          exact ih further _ (still.pages_eq.trans pages_eq)
      | fails advances denied again =>
          rw [advances]
          exact ih again _ (denied.still.pages_eq.trans pages_eq)

/-- On a calm pager all calls succeed. -/
theorem advance_succeeds (retains : Retains limit pages tree.anchor outline contents)
    (stands : Before outline cursor rest) (session : Session σ) (pages_eq : session.pages = pages)
    (calm : session.Calm) (calls : Nat) :
    (outcomes (advance tree) calls ⟨cursor, session⟩).countP Outcome.succeeded = calls := by
  induction calls generalizing cursor rest session with
  | zero => rfl
  | succ calls ih =>
      rw [outcomes]
      cases advance_moves retains stands session pages_eq with
      | ends advances still ended =>
          simp only [advances, lastState, outcomes_ended advance_ended ended]
          apply (List.countP_cons_of_pos rfl).trans
          exact congrArg (· + 1) (List.countP_replicate.trans (if_pos rfl))
      | passes advances still further =>
          rw [advances]
          apply (List.countP_cons_of_pos rfl).trans
          exact congrArg (· + 1) (ih further _ (still.pages_eq.trans pages_eq) (still.calm calm))
      | fails advances denied again => exact absurd calm denied.stormy

/-- Once the pager is calm, all further calls succeed, however many have failed before. -/
theorem advance_recovers (retains : Retains limit pages tree.anchor outline contents)
    (stands : Before outline cursor rest) (session : Session σ) (pages_eq : session.pages = pages)
    (calls more : Nat) (calm : (repeated (advance tree) calls ⟨cursor, session⟩).session.Calm) :
    (outcomes (advance tree) (calls + more) ⟨cursor, session⟩).countP Outcome.succeeded =
      (outcomes (advance tree) calls ⟨cursor, session⟩).countP Outcome.succeeded + more := by
  rcases repeated_stands retains stands session pages_eq calls with ⟨later, standsLater, kept⟩
  rw [outcomes_add, List.countP_append]
  exact congrArg _ (advance_succeeds retains standsLater _ kept calm more)

/-- Calling what stops at errors ends as advancing does, up to the first error. -/
theorem outcomes_next (retains : Retains limit pages tree.anchor outline contents)
    (stands : Before outline cursor rest) (session : Session σ) (pages_eq : session.pages = pages)
    (calls : Nat) : outcomes (next tree) calls ⟨cursor, session⟩ =
      untilError (outcomes (advance tree) calls ⟨cursor, session⟩) := by
  induction calls generalizing cursor rest session with
  | zero => rfl
  | succ calls ih =>
      rw [outcomes, outcomes]
      cases advance_moves retains stands session pages_eq with
      | ends advances still ended =>
          simp only [next_eq_of_ok advances, advances, lastState, outcomes_ended next_ended ended,
            outcomes_ended advance_ended ended]
          exact (untilError_replicate none (calls + 1)).symm
      | passes advances still further =>
          rw [next_eq_of_ok advances, advances]
          exact congrArg (Except.ok _ :: ·) (ih further _ (still.pages_eq.trans pages_eq))
      | fails advances denied again =>
          rw [next_eq_of_error advances, advances]
          simp only [lastState, outcomeOf, untilError, outcomes_length]
          rw [outcomes_ended next_ended rfl]

end

end Cursor

open Cursor (outcomes repeated untilError Resumes Stops)

/-- After a run on a calm pager, a cursor is made and its reads may fail, any of them. Advanced
again and again, it gives the entries of the tree one after the other, as many as calls succeed, and
then nothing; and from when the pager is calm, all calls succeed. Going on only to the first error,
it ends in the same way up to there, so that it gives the same entries. -/
theorem cursor_resumes {σ τ : Type} [Pager σ] [AtomicPager σ] [Pager τ] [AtomicPager τ]
    {index : PageIndex} {actions : List Action} {session after : Session σ} {tree : Tree}
    {cursor : Cursor} {storm opened : Session τ} (calm : session.Calm)
    (creatable : Creatable session.pages index)
    (ran : Client.run index actions .closed session = .ok (.resting tree) after)
    (pages_eq : storm.pages = after.pages) (starts : Cursor.start tree storm = .ok cursor opened) :
    ∃ contents entries, Account.unopened.tally actions = .resting contents ∧
      Lists contents entries ∧ ∀ calls,
        Resumes entries (outcomes (Cursor.advance tree) calls ⟨cursor, opened⟩) ∧
        (outcomes (Cursor.advance tree) calls ⟨cursor, opened⟩).filterMap Cursor.Outcome.entry? =
          entries.take ((outcomes (Cursor.advance tree) calls ⟨cursor, opened⟩).countP
            Cursor.Outcome.succeeded) ∧
        ((repeated (Cursor.advance tree) calls ⟨cursor, opened⟩).session.Calm → ∀ more,
          (outcomes (Cursor.advance tree) (calls + more) ⟨cursor, opened⟩).countP
              Cursor.Outcome.succeeded =
            (outcomes (Cursor.advance tree) calls ⟨cursor, opened⟩).countP
              Cursor.Outcome.succeeded + more) ∧
        outcomes (Cursor.next tree) calls ⟨cursor, opened⟩ =
          untilError (outcomes (Cursor.advance tree) calls ⟨cursor, opened⟩) ∧
        Stops entries (outcomes (Cursor.next tree) calls ⟨cursor, opened⟩) := by
  have sound : Sound index 255 0 .unopened .closed session := .unopened creatable calm
  have admitted : ∀ action ∈ actions, action.Admitted 255 :=
    Action.admitted fun config _ => config.maxEntries_le
  have soundAfter := ((sound.run_ends (Nat.le_refl _) admitted).of_ok ran).1
  generalize Account.unopened.tally actions = account at soundAfter ⊢
  cases soundAfter with
  | @resting contents _ _ rests =>
      rcases rests.keeps with ⟨outline, keeps⟩
      have retains := keeps.retains
      rcases (Cursor.start_consults retains storm pages_eq).of_ok starts with ⟨stands, still⟩
      have kept := still.pages_eq.trans pages_eq
      refine ⟨contents, outline.entries contents, rfl, retains.lists, fun calls => ?_⟩
      have resumes := Cursor.advance_resumes retains stands opened kept calls
      have same := Cursor.outcomes_next retains stands opened kept calls
      refine ⟨resumes, resumes.given_eq, fun calmLater more => ?_, same, ?_⟩
      · exact Cursor.advance_recovers retains stands opened kept calls more calmLater
      · rw [same]
        exact resumes.stops

/-- A cursor goes through four entries on two leaves while the first attempt to read the second leaf
fails. -/
def GetsOver : Client → Session Memory → Prop
  | .resting tree, session =>
    Ends (Cursor.start tree (session.interrupted [false, false, true]))
      (fun cursor opened =>
        (outcomes (Cursor.advance tree) 6 ⟨cursor, opened⟩).map Cursor.Outcome.succeeded =
          [true, false, true, true, true, true] ∧
        (outcomes (Cursor.advance tree) 6 ⟨cursor, opened⟩).filterMap Cursor.Outcome.entry? =
          [⟨[1], [1]⟩, ⟨[2], [2]⟩, ⟨[3], [3]⟩, ⟨[4], [4]⟩] ∧
        (outcomes (Cursor.next tree) 3 ⟨cursor, opened⟩).filterMap Cursor.Outcome.entry? =
          [⟨[1], [1]⟩] ∧
        (outcomes (Cursor.advance tree) 2 ⟨cursor, opened⟩).countP Cursor.Outcome.succeeded = 1 ∧
        (repeated (Cursor.advance tree) 2 ⟨cursor, opened⟩).session.device.script = [])
      (fun _ _ => False)
  | _, _ => False

instance : (client : Client) → (session : Session Memory) → Decidable (GetsOver client session)
  | .resting _, _ => inferInstanceAs (Decidable (Ends _ _ _))
  | .closed, _ => inferInstanceAs (Decidable False)
  | .changing _, _ => inferInstanceAs (Decidable False)

/-- On the way from one leaf to the next a read fails. The call after that one goes on where the
cursor was, and from there on all calls succeed; what stops at errors gives the first leaf only. -/
theorem cursor_resumes_memory :
    ∃ (tree : Tree) (after : Session Memory) (cursor : Cursor) (opened : Session (Flaky Memory))
      (entries : List Entry),
      Client.run 0 (insertingBytes fourChildren [1, 2, 3, 4] ++ [.commit]) .closed
          (⟨⟨[]⟩, []⟩ : Session Memory) = .ok (.resting tree) after ∧
      Cursor.start tree (after.interrupted [false, false, true]) = .ok cursor opened ∧
      Resumes entries (outcomes (Cursor.advance tree) 6 ⟨cursor, opened⟩) ∧
      (outcomes (Cursor.advance tree) 6 ⟨cursor, opened⟩).map Cursor.Outcome.succeeded =
        [true, false, true, true, true, true] ∧
      (outcomes (Cursor.advance tree) 6 ⟨cursor, opened⟩).filterMap Cursor.Outcome.entry? =
        [⟨[1], [1]⟩, ⟨[2], [2]⟩, ⟨[3], [3]⟩, ⟨[4], [4]⟩] ∧
      (∀ more, (outcomes (Cursor.advance tree) (2 + more) ⟨cursor, opened⟩).countP
        Cursor.Outcome.succeeded = 1 + more) ∧
      Stops entries (outcomes (Cursor.next tree) 3 ⟨cursor, opened⟩) ∧
      (outcomes (Cursor.next tree) 3 ⟨cursor, opened⟩).filterMap Cursor.Outcome.entry? =
        [⟨[1], [1]⟩] := by
  have calm : Session.Calm (⟨⟨[]⟩, []⟩ : Session Memory) := trivial
  have runs : Ends (Client.run 0 (insertingBytes fourChildren [1, 2, 3, 4] ++ [.commit]) .closed
      (⟨⟨[]⟩, []⟩ : Session Memory)) (fun client after => GetsOver client after)
      (fun _ _ => False) := by
    decide +kernel
  rcases runs.exists_ok (fun _ _ => id) with ⟨client, after, ran, getsOver⟩
  cases client with
  | closed => exact getsOver.elim
  | changing transaction => exact getsOver.elim
  | resting tree =>
      rcases getsOver.exists_ok (fun _ _ => id) with
        ⟨cursor, opened, starts, succeeded, given, stopped, once, scriptOver⟩
      have pages_eq : (after.interrupted [false, false, true]).pages = after.pages := rfl
      rcases cursor_resumes calm (Or.inl rfl) ran pages_eq starts with ⟨_, entries, _, _, gives⟩
      have calmLater : (repeated (Cursor.advance tree) 2 ⟨cursor, opened⟩).session.Calm := by
        refine ⟨?_, trivial⟩
        rw [scriptOver]
        exact List.not_mem_nil
      rcases gives 2 with ⟨_, _, recovers, _⟩
      rcases gives 6 with ⟨resumes, _⟩
      rcases gives 3 with ⟨_, _, _, _, stops⟩
      refine ⟨tree, after, cursor, opened, entries, ran, starts, resumes, succeeded, given, ?_,
        stops, stopped⟩
      intro more
      rw [← once]
      exact recovers calmLater more

end PagedMap
