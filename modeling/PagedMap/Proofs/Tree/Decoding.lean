import PagedMap.Proofs.Pager.Watching
import PagedMap.Proofs.Tree.Values

/-!
# Decoding values from any pages

The chain of an encoded value may lead anywhere: pages may have been written by anyone, and their
links may go round in circles. Decoding follows the links as far as they lead through overflow
pages. A walk that comes to an end meets no page twice, so it is shorter than the list of pages, and
the limit on reading a chain stops only the walks that go round for ever.
-/

namespace PagedMap.Value

open PageList (fetch)

variable {σ : Type} [Pager σ] [AtomicPager σ] {pages : List Page} {index last final : PageIndex}
  {visited whole : List PageIndex} {data wholeData encoded : Bytes} {error : TreeError}

/-- Following the links of overflow pages leads from one index to another, past the pages that were
visited, which claim to store some bytes. -/
inductive Walk (pages : List Page) : PageIndex → List PageIndex → PageIndex → Bytes → Prop
  | stay (index : PageIndex) : Walk pages index [] index []
  | step {index last : PageIndex} {page : Page} {part : Overflow} {visited : List PageIndex}
      {data : Bytes} (nonzero : index ≠ 0) (fetched : fetch pages index = some page)
      (views : page.view = .ok (.overflow part)) (further : Walk pages part.next visited last data) :
      Walk pages index (index :: visited) last (part.claimed ++ data)

/-- A link that leads to no overflow page is an error. -/
inductive Astray (pages : List Page) : PageIndex → TreeError → Prop
  | foreign {index : PageIndex} {page : Page} (fetched : fetch pages index = some page)
      (other : page.kind? ≠ some .overflow) :
      Astray pages index (.unexpectedPage index page.kindByte)
  | negative {index : PageIndex} (below : index.toInt < 0) :
      Astray pages index (.pager (.invalidIndex index))
  | outside {index : PageIndex} (beyond : (pages.length : Int) ≤ index.toInt) :
      Astray pages index (.pager (.outOfBounds index pages.length))

/-- What decoding some bytes must end with. -/
inductive Verdict (pages : List Page) : Bytes → Except (Failure TreeError) Bytes → Prop
  | whole (value : Bytes) : Verdict pages (fullTag :: value) (.ok value)
  | chained {head : PageIndex} {visited : List PageIndex} {data : Bytes} (inline : Bytes)
      (walk : Walk pages head visited 0 data) :
      Verdict pages (partialTag :: (Bytes.ofIndex head ++ inline)) (.ok (inline ++ data))
  | empty : Verdict pages [] (.error (.error (.corruptValue "empty encoding")))
  | unknown {tag : UInt8} (rest : Bytes) (notFull : tag ≠ fullTag) (notPartial : tag ≠ partialTag) :
      Verdict pages (tag :: rest) (.error (.error (.corruptValue "unknown value tag")))
  | short {rest : Bytes} (short : rest.length < 8) :
      Verdict pages (partialTag :: rest)
        (.error (.error (.corruptValue "truncated overflow header")))
  | cyclic {head again : PageIndex} {visited : List PageIndex} {data : Bytes} (inline : Bytes)
      (walk : Walk pages head visited again data) (revisited : again ∈ visited) :
      Verdict pages (partialTag :: (Bytes.ofIndex head ++ inline))
        (.error (.error (.corruptValue "overflow chain does not terminate")))
  | astray {head last : PageIndex} {visited : List PageIndex} {data : Bytes} {error : TreeError}
      (inline : Bytes) (walk : Walk pages head visited last data) (nonzero : last ≠ 0)
      (astray : Astray pages last error) :
      Verdict pages (partialTag :: (Bytes.ofIndex head ++ inline)) (.error (.error error))

/-- No overflow page claims more bytes than it has room for. -/
def ClaimsFit (pages : List Page) : Prop :=
  ∀ index page part, fetch pages index = some page → page.view = .ok (.overflow part) →
    part.length ≤ overflowCapacity

/-- Nothing follows an index where a chain ends or leads astray. -/
def Halts (pages : List Page) (index : PageIndex) : Prop :=
  index = 0 ∨ ∃ error, Astray pages index error

/-! ## Walks -/

theorem byte_of_view_error {page : Page} {unknown : UnknownKind}
    (views : page.view = .error unknown) : page.kindByte = unknown.byte := by
  simp only [Page.view] at views
  split at views
  next => injection views with same; rw [← same]
  all_goals contradiction

theorem kind?_of_view {page : Page} {view : View} (views : page.view = .ok view) :
    page.kind? = some view.kind := by
  simp only [Page.view] at views
  split at views
  next => contradiction
  all_goals
    injection views with same
    rw [← same]
    assumption

theorem byte_of_view {page : Page} {view : View} (views : page.view = .ok view) :
    page.kindByte = view.kind.byte :=
  (Kind.byte_of_ofByte? (kind?_of_view views)).symm

/-- A chain goes on at a page that is a part of a value. -/
theorem not_halts {page : Page} {part : Overflow} (nonzero : index ≠ 0)
    (fetched : fetch pages index = some page) (views : page.view = .ok (.overflow part)) :
    ¬ Halts pages index := by
  rintro (zero | ⟨error, astray⟩)
  · exact nonzero zero
  · cases astray with
    | foreign otherFetched other =>
        rw [fetched] at otherFetched
        injection otherFetched with same
        exact other (same ▸ kind?_of_view views)
    | negative below =>
        rw [PageList.fetch_eq_none.mpr (Or.inl below)] at fetched
        contradiction
    | outside beyond =>
        rw [PageList.fetch_eq_none.mpr (Or.inr beyond)] at fetched
        contradiction

namespace Walk

theorem exists_visited (walk : Walk pages index visited last data) {other : PageIndex}
    (member : other ∈ visited) :
    other ≠ 0 ∧ ∃ page part, fetch pages other = some page ∧ page.view = .ok (.overflow part) := by
  induction walk with
  | stay index => contradiction
  | step nonzero fetched views _ ih =>
      rcases List.mem_cons.mp member with rfl | member
      · exact ⟨nonzero, _, _, fetched, views⟩
      · exact ih member

theorem exists_cut (walk : Walk pages index visited last data) {other : PageIndex}
    (member : other ∈ visited) :
    ∃ front back frontData backData, visited = front ++ other :: back ∧
      Walk pages index front other frontData ∧
      Walk pages other (other :: back) last backData := by
  induction walk with
  | stay index => contradiction
  | @step index last page part visited data nonzero fetched views further ih =>
      rcases List.mem_cons.mp member with rfl | member
      · exact ⟨[], visited, [], _, rfl, stay other, step nonzero fetched views further⟩
      · rcases ih member with ⟨front, back, frontData, backData, rfl, reaches, leaves⟩
        exact ⟨index :: front, back, _, backData, rfl, step nonzero fetched views reaches, leaves⟩

/-- From where a walk has come, any walk to a halt goes on. -/
theorem exists_rest (walk : Walk pages index visited last data)
    (complete : Walk pages index whole final wholeData) (halts : Halts pages final) :
    ∃ rest restData, Walk pages last rest final restData ∧ whole = visited ++ rest := by
  induction walk generalizing whole wholeData with
  | stay index => exact ⟨whole, wholeData, complete, rfl⟩
  | @step index last page part visited data nonzero fetched views _ ih =>
      cases complete with
      | stay _ => exact absurd halts (not_halts nonzero fetched views)
      | step _ otherFetched otherViews further =>
          rw [fetched] at otherFetched
          injection otherFetched with same
          rw [← same, views] at otherViews
          injection otherViews with same
          injection same with same
          rcases ih (same ▸ further) with ⟨rest, restData, remaining, rfl⟩
          exact ⟨rest, restData, remaining, rfl⟩

theorem eq_nil_of_halts (walk : Walk pages index visited last data) (halts : Halts pages index) :
    visited = [] := by
  cases walk with
  | stay _ => rfl
  | step nonzero fetched views _ => exact absurd halts (not_halts nonzero fetched views)

/-- A walk to a halt visits no page twice: from a page on, only one walk leads there. -/
theorem nodup_of_halts (walk : Walk pages index visited last data) (halts : Halts pages last) :
    visited.Nodup := by
  induction walk with
  | stay index => exact List.nodup_nil
  | @step index last page part visited data nonzero fetched views further ih =>
      refine List.nodup_cons.mpr ⟨fun member => ?_, ih halts⟩
      rcases further.exists_cut member with ⟨front, back, _, _, rfl, _, again⟩
      rcases again.exists_rest (step nonzero fetched views further) halts with
        ⟨rest, _, remaining, together⟩
      rw [remaining.eq_nil_of_halts halts] at together
      have lengths := congrArg List.length together
      simp only [List.length_cons, List.length_append, List.length_nil] at lengths
      omega

/-- The page to which no chain goes on is not visited, so that fewer than all pages are. -/
theorem length_lt_of_nodup (walk : Walk pages index visited last data) (distinct : visited.Nodup)
    (nonempty : pages ≠ []) : visited.length < pages.length := by
  have positive := List.length_pos_iff.mpr nonempty
  have first : ∃ page, fetch pages 0 = some page :=
    ⟨pages[0], PageList.fetch_eq_some.mpr ⟨Int.le_refl 0, List.getElem?_eq_getElem positive⟩⟩
  have others : ∀ other ∈ 0 :: visited, ∃ page, fetch pages other = some page := by
    intro other member
    rcases List.mem_cons.mp member with rfl | member
    · exact first
    · rcases (walk.exists_visited member).2 with ⟨page, _, fetched, _⟩
      exact ⟨page, fetched⟩
  have unvisited : 0 ∉ visited := fun member => (walk.exists_visited member).1 rfl
  exact PageList.length_le_of_fetched (List.nodup_cons.mpr ⟨unvisited, distinct⟩) others

/-- A walk that visits a page twice has come round to it. -/
theorem exists_cycle (walk : Walk pages index visited last data) (repeats : ¬ visited.Nodup) :
    ∃ front again frontData, Walk pages index front again frontData ∧ again ∈ front := by
  induction walk with
  | stay index => exact absurd List.nodup_nil repeats
  | @step index last page part visited data nonzero fetched views further ih =>
      by_cases member : index ∈ visited
      · rcases further.exists_cut member with ⟨front, _, _, _, _, round, _⟩
        exact ⟨index :: front, index, _, step nonzero fetched views round, List.mem_cons_self⟩
      · rcases ih fun distinct => repeats (List.nodup_cons.mpr ⟨member, distinct⟩) with
          ⟨front, again, _, round, inFront⟩
        exact ⟨index :: front, again, _, step nonzero fetched views round,
          List.mem_cons_of_mem index inFront⟩

/-- A walk that comes back to a page never comes to the end of the chain. -/
theorem not_halts_of_revisited (walk : Walk pages index visited last data)
    (revisited : last ∈ visited) (complete : Walk pages index whole final wholeData) :
    ¬ Halts pages final := by
  intro halts
  rcases walk.exists_rest complete halts with ⟨rest, _, remaining, rfl⟩
  have distinct := complete.nodup_of_halts halts
  cases remaining with
  | stay _ =>
      rcases walk.exists_visited revisited with ⟨nonzero, page, part, fetched, views⟩
      exact not_halts nonzero fetched views halts
  | step _ _ _ _ =>
      have disjoint := (List.nodup_append.mp distinct).2.2
      exact disjoint last revisited last List.mem_cons_self rfl

end Walk

/-- Every chain can be followed over so many pages, if it does not come to a halt before. -/
theorem exists_walk (pages : List Page) (index : PageIndex) (steps : Nat) :
    ∃ visited last data, Walk pages index visited last data ∧
      (visited.length = steps ∨ visited.length < steps ∧ Halts pages last) := by
  induction steps generalizing index with
  | zero => exact ⟨[], index, [], .stay index, Or.inl rfl⟩
  | succ steps ih =>
      have stops (halts : Halts pages index) : ∃ visited last data,
          Walk pages index visited last data ∧ (visited.length = steps + 1 ∨
            visited.length < steps + 1 ∧ Halts pages last) :=
        ⟨[], index, [], .stay index, Or.inr ⟨Nat.succ_pos steps, halts⟩⟩
      by_cases zero : index = 0
      · exact stops (Or.inl zero)
      cases fetched : fetch pages index with
      | none =>
          rcases PageList.fetch_eq_none.mp fetched with below | beyond
          · exact stops (Or.inr ⟨_, .negative below⟩)
          · exact stops (Or.inr ⟨_, .outside beyond⟩)
      | some page =>
          by_cases kind : page.kind? = some .overflow
          · have views : page.view = .ok (.overflow (Overflow.ofBytes page)) := by
              simp only [Page.view, kind]
            rcases ih (Overflow.ofBytes page).next with ⟨visited, last, data, walk, ends⟩
            refine ⟨_, last, _, .step zero fetched views walk, ?_⟩
            rw [List.length_cons]
            exact ends.imp (congrArg (· + 1)) (And.imp_left Nat.succ_lt_succ)
          · exact stops (Or.inr ⟨_, .foreign fetched kind⟩)

/-! ## Following a chain -/

section Following

variable {session : Session σ}

/-- Following goes along a walk, one step for each page of it, and gathers its data. -/
theorem Walk.follow_eq (walk : Walk pages index visited last data) (fit : ClaimsFit pages)
    (calm : session.Calm) (pages_eq : session.pages = pages) (left : Nat) (value : Bytes) :
    ∃ middle, session.Still middle ∧ follow (visited.length + left) index value session =
      follow left last (value ++ data) middle := by
  induction walk generalizing session value with
  | stay index =>
      rw [List.length_nil, Nat.zero_add, List.append_nil]
      exact ⟨session, Session.Still.refl session, rfl⟩
  | @step index last page part visited data nonzero fetched views further ih =>
      have reads := Consults.readView fetched views session pages_eq
      rcases reads.exists_ok (fun _ _ denied => denied.stormy calm) with
        ⟨_, middle, read, rfl, still⟩
      rcases ih (still.calm calm) (still.pages_eq.trans pages_eq) (value ++ part.claimed) with
        ⟨after, later, follow_eq⟩
      refine ⟨after, still.trans later, ?_⟩
      rw [List.length_cons, Nat.add_right_comm, follow, if_neg nonzero, bind_eq_of_ok read]
      rw [List.append_assoc] at follow_eq
      rw [← follow_eq]
      exact Ends.lift_bind (Overflow.data_of_bounded (fit index page part fetched views)) _

theorem readPage_error (calm : session.Calm) {cause : PagerError}
    (fails : Pager.readPage index (⟨session.pages⟩ : Memory) = .error cause ⟨session.pages⟩) :
    ∃ after, TreeM.readPage index session = .error (.error (.pager cause)) after := by
  have tracks := AtomicPager.readPage_tracks index session.device
  rcases tracks.error_of_calm calm fails with ⟨after, failed⟩
  refine ⟨{ session with device := after }, ?_⟩
  simp only [TreeM.readPage, TreeM.call, TreeM.ofPager, SessionM.relabel, SessionM.onDevice, failed]

omit [AtomicPager σ] in
theorem readView_error {failure : Failure TreeError} {after : Session σ}
    (failed : TreeM.readPage index session = .error failure after) :
    TreeM.readView index session = .error failure after :=
  bind_eq_of_error failed _

/-- Following ends with the error of the page where the chain goes astray. -/
theorem Astray.follow_eq (astray : Astray session.pages index error) (nonzero : index ≠ 0)
    (calm : session.Calm) (left : Nat) (value : Bytes) :
    outcomeOf (follow (left + 1) index value session) = .error (.error error) := by
  rw [follow, if_neg nonzero]
  cases astray with
  | @foreign page fetched other =>
      rcases (Consults.readPage fetched session rfl).exists_ok
        (fun _ _ denied => denied.stormy calm) with ⟨_, middle, read, same, _⟩
      rw [same] at read
      cases views : page.view with
      | error unknown =>
          have unread : TreeM.readView index session =
              .error (.error (.unexpectedPage index unknown.byte)) middle := by
            rw [TreeM.readView, bind_eq_of_ok read, views]
            rfl
          rw [bind_eq_of_error unread, ← byte_of_view_error views]
          rfl
      | ok view =>
          have viewed : TreeM.readView index session = .ok view middle := by
            rw [TreeM.readView, bind_eq_of_ok read, views]
            rfl
          rw [bind_eq_of_ok viewed, byte_of_view views]
          cases view with
          | overflow part => exact absurd (kind?_of_view views) other
          | blank | anchor _ | node _ | leaf _ => rfl
  | negative below =>
      rcases readPage_error calm (PageList.readPage_negative session.pages below) with
        ⟨after, failed⟩
      rw [bind_eq_of_error (readView_error failed)]
      rfl
  | outside beyond =>
      rcases readPage_error calm (PageList.readPage_outside beyond) with ⟨after, failed⟩
      rw [bind_eq_of_error (readView_error failed)]
      rfl

theorem Walk.follow_ended (walk : Walk session.pages index visited 0 data)
    (fit : ClaimsFit session.pages) (calm : session.Calm) (nonempty : session.pages ≠ [])
    (value : Bytes) :
    outcomeOf (follow session.pages.length index value session) = .ok (value ++ data) := by
  have few := walk.length_lt_of_nodup (walk.nodup_of_halts (Or.inl rfl)) nonempty
  rcases Nat.exists_eq_add_of_lt few with ⟨left, total_eq⟩
  rcases walk.follow_eq fit calm rfl (left + 1) value with ⟨middle, _, follow_eq⟩
  rw [total_eq, Nat.add_assoc, follow_eq, follow, if_pos rfl]
  rfl

theorem Walk.follow_astray (walk : Walk session.pages index visited last data)
    (astray : Astray session.pages last error) (nonzero : last ≠ 0)
    (fit : ClaimsFit session.pages) (calm : session.Calm) (nonempty : session.pages ≠ [])
    (value : Bytes) :
    outcomeOf (follow session.pages.length index value session) = .error (.error error) := by
  have few := walk.length_lt_of_nodup (walk.nodup_of_halts (Or.inr ⟨error, astray⟩)) nonempty
  rcases Nat.exists_eq_add_of_lt few with ⟨left, total_eq⟩
  rcases walk.follow_eq fit calm rfl (left + 1) value with ⟨middle, still, follow_eq⟩
  rw [total_eq, Nat.add_assoc, follow_eq]
  exact Astray.follow_eq (still.pages_eq ▸ astray) nonzero (still.calm calm) left _

/-- On a chain that comes back to itself following takes as many steps as there are pages, and gives
up. -/
theorem Walk.follow_cyclic (walk : Walk session.pages index visited last data)
    (revisited : last ∈ visited) (fit : ClaimsFit session.pages) (calm : session.Calm)
    (value : Bytes) :
    outcomeOf (follow session.pages.length index value session) =
      .error (.error (.corruptValue "overflow chain does not terminate")) := by
  rcases exists_walk session.pages index session.pages.length with
    ⟨whole, final, wholeData, complete, exhausted | ⟨_, halts⟩⟩
  · have goesOn : final ≠ 0 := fun zero =>
      walk.not_halts_of_revisited revisited complete (Or.inl zero)
    rcases complete.follow_eq fit calm rfl 0 value with ⟨middle, _, follow_eq⟩
    rw [← exhausted, ← Nat.add_zero whole.length, follow_eq, follow, if_neg goesOn]
    rfl
  · exact absurd halts (walk.not_halts_of_revisited revisited complete)

end Following

/-! ## Decoding -/

theorem exists_header {rest : Bytes} (long : 8 ≤ rest.length) :
    ∃ head inline, rest = Bytes.ofIndex head ++ inline := by
  refine ⟨Bytes.toIndex (rest.take 8), rest.drop 8, ?_⟩
  rw [Bytes.ofIndex_toIndex, List.take_append_drop]
  rw [List.length_take]
  omega

theorem overflowHead?_eq_none
    (headless : ¬ ∃ head inline, encoded = partialTag :: (Bytes.ofIndex head ++ inline)) :
    overflowHead? encoded = none := by
  rw [overflowHead?, if_neg]
  rintro ⟨tagged, long⟩
  cases encoded with
  | nil => contradiction
  | cons tag rest =>
      injection tagged with tagged
      rw [partialHeaderSize, List.length_cons] at long
      rcases exists_header (Nat.le_of_succ_le_succ long) with ⟨head, inline, rest_eq⟩
      exact headless ⟨head, inline, by rw [tagged, rest_eq]⟩

/-- There is a verdict on any bytes, whatever the pages are. -/
theorem exists_verdict (nonempty : pages ≠ []) (encoded : Bytes) :
    ∃ outcome, Verdict pages encoded outcome := by
  cases encoded with
  | nil => exact ⟨_, .empty⟩
  | cons tag rest =>
      by_cases full : tag = fullTag
      · exact ⟨_, full ▸ Verdict.whole rest⟩
      by_cases isPartial : tag = partialTag
      · subst isPartial
        by_cases short : rest.length < 8
        · exact ⟨_, .short short⟩
        rcases exists_header (Nat.le_of_not_lt short) with ⟨head, inline, rfl⟩
        rcases exists_walk pages head pages.length with
          ⟨visited, last, data, walk, exhausted | ⟨_, rfl | ⟨error, astray⟩⟩⟩
        · have repeats : ¬ visited.Nodup := by
            intro distinct
            have := walk.length_lt_of_nodup distinct nonempty
            omega
          rcases walk.exists_cycle repeats with ⟨front, again, _, round, revisited⟩
          exact ⟨_, .cyclic _ round revisited⟩
        · exact ⟨_, .chained _ walk⟩
        · by_cases zero : last = 0
          · subst zero
            exact ⟨_, .chained _ walk⟩
          · exact ⟨_, .astray _ walk zero astray⟩
      · exact ⟨_, .unknown rest full isPartial⟩

variable {session : Session σ} {head : PageIndex} {outcome : Except (Failure TreeError) Bytes}

/-- With a header, decoding follows the chain over at most as many pages as there are. -/
theorem outcome_decode_partial (calm : session.Calm) (inline : Bytes)
    (follows : ∀ middle : Session σ, middle.pages = session.pages → middle.Calm →
      outcomeOf (follow middle.pages.length head inline middle) = outcome) :
    outcomeOf (decode (partialTag :: (Bytes.ofIndex head ++ inline)) session) = outcome := by
  have notFull : partialTag ≠ fullTag := by decide
  have inline_eq : (Bytes.ofIndex head ++ inline).drop 8 = inline :=
    List.drop_left' (Bytes.length_ofIndex head)
  rcases (Consults.pageCount session rfl).exists_ok (fun _ _ denied => denied.stormy calm) with
    ⟨_, middle, counted, rfl, still⟩
  simp only [decode, overflowHead?_partial]
  rw [if_neg notFull, if_neg (not_not_intro rfl), bind_eq_of_ok counted, inline_eq,
    ← still.pages_eq]
  exact follows middle still.pages_eq (still.calm calm)

/-- Decoding comes to the outcome of the verdict. -/
theorem Verdict.outcome_eq (verdict : Verdict session.pages encoded outcome)
    (fit : ClaimsFit session.pages) (calm : session.Calm) (nonempty : session.pages ≠ []) :
    outcomeOf (decode encoded session) = outcome := by
  -- Without a header the bytes alone decide; with one the chain is followed to its end.
  cases verdict with
  | whole value => rfl
  | empty => rfl
  | unknown rest notFull notPartial =>
      simp only [decode]
      rw [if_neg notFull, if_pos notPartial]
      rfl
  | @short rest short =>
      have notFull : partialTag ≠ fullTag := by decide
      have headless : overflowHead? (partialTag :: rest) = none := by
        apply overflowHead?_eq_none
        rintro ⟨head, inline, same⟩
        injection same with _ same
        rw [same, List.length_append, Bytes.length_ofIndex] at short
        omega
      simp only [decode, headless]
      rw [if_neg notFull, if_neg (not_not_intro rfl)]
      rfl
  | chained inline walk =>
      apply outcome_decode_partial calm
      intro middle pages_eq calm
      rw [← pages_eq] at walk fit nonempty
      exact walk.follow_ended fit calm nonempty inline
  | cyclic inline walk revisited =>
      apply outcome_decode_partial calm
      intro middle pages_eq calm
      rw [← pages_eq] at walk fit
      exact walk.follow_cyclic revisited fit calm inline
  | astray inline walk nonzero astray =>
      apply outcome_decode_partial calm
      intro middle pages_eq calm
      rw [← pages_eq] at walk astray fit nonempty
      exact walk.follow_astray astray nonzero fit calm nonempty inline

/-- A calm pager's pages and the bytes decide alone how decoding ends. -/
theorem outcome_decode_iff (fit : ClaimsFit session.pages) (calm : session.Calm)
    (nonempty : session.pages ≠ []) :
    outcomeOf (decode encoded session) = outcome ↔ Verdict session.pages encoded outcome := by
  constructor
  · rintro rfl
    rcases exists_verdict nonempty encoded with ⟨outcome, verdict⟩
    rw [verdict.outcome_eq fit calm nonempty]
    exact verdict
  · intro verdict
    exact verdict.outcome_eq fit calm nonempty

/-! ## Reading no more pages than there are -/

/-- Following reads at most one page for each step that it may take. -/
theorem follow_asksAtMost (limit : Nat) (next : PageIndex) (value : Bytes) :
    AsksAtMost limit (follow limit next value : TreeM (Watching σ) Bytes) := by
  induction limit generalizing next value with
  | zero =>
      unfold follow
      split
      · exact AsksAtMost.pure value
      · exact AsksAtMost.fail _
  | succ limit ih =>
      unfold follow
      split
      · exact (AsksAtMost.pure value).mono (Nat.zero_le _)
      · refine AsksAtMost.mono ?_ (Nat.le_of_eq (Nat.add_comm 1 limit))
        apply AsksAtMost.bind (AsksAtMost.readView next)
        intro view
        cases view with
        | overflow part =>
            refine AsksAtMost.mono ?_ (Nat.le_of_eq (Nat.zero_add limit))
            exact AsksAtMost.bind (AsksAtMost.lift part.data) fun data => ih part.next _
        | blank | anchor _ | node _ | leaf _ => exact (AsksAtMost.fail _).mono (Nat.zero_le _)

/-- Decoding changes no page and reads at most as many as there are, and without a header none. -/
theorem decode_looks (encoded : Bytes) (session : Session (Watching σ)) :
    ∃ seen, Looks session seen (lastState (decode encoded session)) ∧
      seen.length ≤ session.pages.length ∧ (overflowHead? encoded = none → seen = []) := by
  have unread {result : EStateM.Result (Failure TreeError) (Session (Watching σ)) Bytes}
      (same : lastState result = session) : ∃ seen, Looks session seen (lastState result) ∧
        seen.length ≤ session.pages.length ∧ (overflowHead? encoded = none → seen = []) :=
    ⟨[], same ▸ Looks.refl session, Nat.zero_le _, fun _ => rfl⟩
  cases encoded with
  | nil => exact unread rfl
  | cons tag rest =>
      simp only [decode]
      by_cases full : tag = fullTag
      · rw [if_pos full]
        exact unread rfl
      by_cases isPartial : tag ≠ partialTag
      · rw [if_neg full, if_pos isPartial]
        exact unread rfl
      rw [if_neg full, if_neg isPartial]
      -- With a header the pages are counted, and the count bounds how many are read.
      cases headed : overflowHead? (tag :: rest) with
      | none => exact ⟨[], Looks.refl session, Nat.zero_le _, fun _ => rfl⟩
      | some head =>
          have counts := (pageCount_looks session).and (Ends.self TreeM.pageCount session)
          cases counted : TreeM.pageCount session with
          | ok count middle =>
              rw [counted] at counts
              rcases counts.1 with ⟨rfl, looks⟩
              rcases follow_asksAtMost session.pages.length head (rest.drop 8) middle with
                ⟨seen, looksLater, few⟩
              simp only [bind_eq_of_ok counted]
              exact ⟨seen, looks.trans looksLater, few, fun none_eq => by contradiction⟩
          | error failure middle =>
              rw [counted] at counts
              simp only [bind_eq_of_error counted]
              exact ⟨[], counts.1.2, Nat.zero_le _, fun _ => rfl⟩

/-- On the pages of a calm pager, decoding ends as these pages and the bytes say, whether or not it
is watched. It asks for at most as many pages as there are, and for none without a header. -/
theorem decode_judged (session : Session σ) (calm : session.Calm) (nonempty : session.pages ≠ [])
    (fit : ClaimsFit session.pages) (encoded : Bytes) :
    (∀ outcome, outcomeOf (decode encoded session) = outcome ↔
        Verdict session.pages encoded outcome) ∧
      (∀ outcome, outcomeOf (decode encoded session.watched) = outcome ↔
        Verdict session.pages encoded outcome) ∧
      (lastState (decode encoded session.watched)).device.reads.length ≤ session.pages.length ∧
      ((¬ ∃ head inline, encoded = partialTag :: (Bytes.ofIndex head ++ inline)) →
        (lastState (decode encoded session.watched)).device.reads = []) := by
  rcases decode_looks encoded session.watched with ⟨seen, looks, few, unread⟩
  refine ⟨fun outcome => outcome_decode_iff fit calm nonempty,
    fun outcome => outcome_decode_iff fit calm nonempty, ?_, ?_⟩
  · rw [looks.reads_of_watched]
    exact few
  · intro headless
    rw [looks.reads_of_watched]
    exact unread (overflowHead?_eq_none headless)

/-- A chain over all pages but the first one is followed to its end. -/
theorem decode_judged_all_pages :
    let pages := [Page.blank, (Overflow.empty 2).toPage, (Overflow.empty 0).toPage]
    outcomeOf (decode (partialTag :: (Bytes.ofIndex 1 ++ [7])) (⟨⟨pages⟩, []⟩ : Session Memory)) =
        .ok [7] ∧
      (lastState (decode (partialTag :: (Bytes.ofIndex 1 ++ [7]))
        (⟨⟨pages⟩, []⟩ : Session Memory).watched)).device.reads.length ≤ 3 := by
  intro pages
  have fit : ClaimsFit pages := by
    intro index page part fetched views
    have member := List.mem_of_getElem? (PageList.fetch_eq_some.mp fetched).2
    simp only [pages, List.mem_cons, List.not_mem_nil, or_false] at member
    rcases member with rfl | rfl | rfl
    · have blank : Page.blank.view = .ok .blank := rfl
      rw [blank] at views
      cases views
    · rw [Overflow.view_toPage] at views
      injection views with same
      injection same with same
      rw [← same]
      decide
    · rw [Overflow.view_toPage] at views
      injection views with same
      injection same with same
      rw [← same]
      decide
  have walk : Walk pages 1 [1, 2] 0 [] := by
    have second : Walk pages 2 [2] 0 ((Overflow.empty 0).claimed ++ []) :=
      Walk.step (by decide) rfl (Overflow.view_toPage (Overflow.empty 0)) (Walk.stay 0)
    have first : Walk pages 1 [1, 2] 0
        ((Overflow.empty 2).claimed ++ ((Overflow.empty 0).claimed ++ [])) :=
      Walk.step (by decide) rfl (Overflow.view_toPage (Overflow.empty 2)) second
    rw [Overflow.claimed_empty, Overflow.claimed_empty] at first
    exact first
  have judged := decode_judged (⟨⟨pages⟩, []⟩ : Session Memory) trivial (List.cons_ne_nil _ _) fit
    (partialTag :: (Bytes.ofIndex 1 ++ [7]))
  exact ⟨(judged.1 _).mpr (.chained [7] walk), judged.2.2.1⟩

end PagedMap.Value
