import PagedMap.Tree.Cursor
import PagedMap.Proofs.Tree.Lookups

/-!
# Going through a tree

The chain of leaves has all records in order. Counting along it gives their number, and a cursor
passes them one by one.
-/

namespace PagedMap

open PageList (fetch)
open Session (Still Denied)

variable {σ : Type} [Pager σ] [AtomicPager σ] {limit : Nat} {pages : List Page} {tree : Tree}
  {outline : Outline} {contents : Contents}

namespace Retains

/-- Going down by the first child of every node leads to the first leaf. -/
theorem leftmostLeaf_consults (retains : Retains limit pages tree.anchor outline contents) :
    Consults pages (tree.leftmostLeaf : TreeM σ Leaf) fun leaf =>
      ∃ sheet rest, outline.sheets = sheet :: rest ∧ leaf.next = sheet.next ∧
        leaf.Holds sheet.records := by
  have trellis := retains.trellis
  have leads := trellis.leads
  rw [← List.reverse_reverse outline.levels] at leads
  have descends : Consults pages
      (Tree.descendFrom (fun _ => .ok (-1)) walkLimit tree.anchor.root [] : TreeM σ Descent)
      fun found => (outline.sheets.map Sheet.link).head?.map Link.index = some found.index ∧
        fetch pages found.index = some found.leaf.toPage := by
    apply Tree.descendFrom_first retains.leaves outline.levels.reverse ?_ ?_ leads rfl
      (by simpa using retains.height_lt)
    · exact fun group member => trellis.stored group (by simpa using member)
    · exact fun group member => trellis.linked group (by simpa using member)
  apply Consults.bind descends
  rintro found ⟨head_eq, fetched⟩
  rcases List.exists_cons_of_ne_nil retains.shelf.ordered.ne_nil with ⟨sheet, rest, sheets_eq⟩
  rcases retains.shelf.stored sheet (by simp [sheets_eq]) with ⟨leaf, stored, next_eq, holds⟩
  rw [sheets_eq] at head_eq
  injection head_eq with index_eq
  rw [← index_eq] at fetched
  have same : leaf.toPage = found.leaf.toPage := Option.some.inj (stored.symm.trans fetched)
  rw [Leaf.toPage_inj same] at next_eq holds
  exact Consults.pure ⟨sheet, rest, sheets_eq, next_eq, holds⟩

/-- The last leaf alone is followed by the sentinel. -/
theorem next_eq_sentinel_iff (retains : Retains limit pages tree.anchor outline contents)
    {front back : List Sheet} {sheet : Sheet}
    (sheets_eq : outline.sheets = front ++ sheet :: back) :
    sheet.next = tree.anchor.sentinel ↔ back = [] := by
  rcases retains.shelf.chained with ⟨first, chained⟩
  rw [sheets_eq, chained_append] at chained
  rcases chained with ⟨_, _, _, behind⟩
  cases back with
  | nil => exact ⟨fun _ => rfl, fun _ => behind⟩
  | cons following others =>
      constructor
      · intro isLast
        have distinct := (List.nodup_cons.mp retains.shelf.distinct).1
        rw [sheets_eq, ← isLast, ← behind.1] at distinct
        exact absurd (by simp) distinct
      · intro none
        contradiction

theorem next_fetched (retains : Retains limit pages tree.anchor outline contents)
    {front back : List Sheet} {sheet following : Sheet}
    (sheets_eq : outline.sheets = front ++ sheet :: following :: back) :
    ∃ leaf : Leaf, fetch pages sheet.next = some leaf.toPage ∧ leaf.next = following.next ∧
      leaf.Holds following.records := by
  rcases retains.shelf.chained with ⟨first, chained⟩
  rw [sheets_eq, chained_append] at chained
  rcases chained with ⟨_, _, _, index_eq, _⟩
  rw [← index_eq]
  exact retains.shelf.stored following (by simp [sheets_eq])

/-! ## Counting -/

/-- From a leaf on the entries of all later leaves are counted. -/
theorem countFrom_consults (retains : Retains limit pages tree.anchor outline contents)
    {front back : List Sheet} {sheet : Sheet} {leaf : Leaf}
    (sheets_eq : outline.sheets = front ++ sheet :: back) (next_eq : leaf.next = sheet.next)
    (holds : leaf.Holds sheet.records) {steps : Nat} (enough : back.length ≤ steps)
    (counted : Nat) :
    Consults pages (tree.countFrom steps leaf counted : TreeM σ Nat)
      (· = counted + ((sheet :: back).flatMap Sheet.records).length) := by
  induction back generalizing front sheet leaf steps counted with
  | nil =>
      have isLast := (retains.next_eq_sentinel_iff sheets_eq).mpr rfl
      unfold Tree.countFrom
      rw [next_eq, if_pos isLast, holds.count_eq]
      exact Consults.pure (by simp)
  | cons following others ih =>
      cases steps with
      | zero => simp at enough
      | succ steps =>
          have notLast : leaf.next ≠ tree.anchor.sentinel := by
            rw [next_eq]
            exact mt (retains.next_eq_sentinel_iff sheets_eq).mp (List.cons_ne_nil _ _)
          rcases retains.next_fetched sheets_eq with ⟨nextLeaf, fetched, nextNext, nextHolds⟩
          rw [← next_eq] at fetched
          rw [Tree.countFrom, if_neg notLast]
          apply Consults.bind (Consults.readLeaf fetched)
          rintro _ rfl
          have moved : outline.sheets = (front ++ [sheet]) ++ following :: others := by
            simp [sheets_eq]
          have further : others.length ≤ steps := Nat.le_of_succ_le_succ enough
          apply (ih moved nextNext nextHolds further (counted + leaf.count)).mono
          rintro _ rfl
          simp only [List.flatMap_cons, List.length_append, holds.count_eq]
          omega

theorem size_consults (retains : Retains limit pages tree.anchor outline contents) :
    Consults pages (tree.size : TreeM σ Nat)
      (· = (outline.sheets.flatMap Sheet.records).length) := by
  apply Consults.bind retains.leftmostLeaf_consults
  rintro leaf ⟨sheet, rest, sheets_eq, next_eq, holds⟩
  have width := retains.width_lt
  rw [sheets_eq, List.length_cons] at width
  have enough : rest.length ≤ walkLimit := Nat.le_of_lt (Nat.lt_of_succ_lt width)
  have fromFirst : outline.sheets = [] ++ sheet :: rest := sheets_eq
  apply (retains.countFrom_consults fromFirst next_eq holds enough 0).mono
  rintro _ rfl
  rw [sheets_eq, Nat.zero_add]

end Retains

/-! ## Cursors -/

namespace Cursor

/-- The records in front of which a cursor stands. -/
inductive Before (outline : Outline) : Cursor → List Record → Prop
  | atEnd (passed : Nat) : Before outline ⟨none, passed⟩ []
  | within {front back : List Sheet} {sheet : Sheet} {leaf : Leaf} {passed : Nat}
      (sheets_eq : outline.sheets = front ++ sheet :: back) (next_eq : leaf.next = sheet.next)
      (holds : leaf.Holds sheet.records) (inside : passed ≤ sheet.records.length) :
      Before outline ⟨some leaf, passed⟩
        (sheet.records.drop passed ++ back.flatMap Sheet.records)

/-- A cursor has passed the first of the records in front of it, if there was one. Otherwise it is
at the end. -/
inductive Passes (outline : Outline) (contents : Contents) (after : Cursor) :
    List Record → Option Entry → Prop
  | none (ended : after.leaf = none) : Passes outline contents after [] none
  | some {record : Record} {rest : List Record} {value : Bytes}
      (known : contents record.1 = some value) (stands : Before outline after rest) :
      Passes outline contents after (record :: rest) (some ⟨record.1, value⟩)

/-- A cursor inside a leaf gives the entry that it stands before. If the pager fails, it still
stands there. -/
theorem advanceWithin_entry (retains : Retains limit pages tree.anchor outline contents)
    {front back : List Sheet} {sheet : Sheet} {leaf : Leaf} {passed : Nat}
    (sheets_eq : outline.sheets = front ++ sheet :: back) (next_eq : leaf.next = sheet.next)
    (holds : leaf.Holds sheet.records) (inside : passed < sheet.records.length) (steps : Nat)
    (session : Session σ) (pages_eq : session.pages = pages) :
    Ends (advanceWithin tree steps ⟨⟨some leaf, passed⟩, session⟩)
      (fun entry after => session.Still after.session ∧
        Passes outline contents after.held
          (sheet.records.drop passed ++ back.flatMap Sheet.records) entry)
      (fun failure after => session.Denied failure after.session ∧
        Before outline after.held
          (sheet.records.drop passed ++ back.flatMap Sheet.records)) := by
  have counted : passed < leaf.count := by
    rw [holds.count_eq]
    exact inside
  have member : sheet.records[passed] ∈ outline.sheets.flatMap Sheet.records := by
    rw [sheets_eq]
    exact List.mem_flatMap_of_mem (by simp) (List.getElem_mem inside)
  rcases retains.means.decoded _ member with ⟨value, known, decodes⟩
  unfold advanceWithin
  rw [HoldingM.held_bind]
  simp only [if_pos counted]
  rw [Ends.lift_bind (holds.key_getElem inside), Ends.lift_bind (holds.value_getElem inside)]
  have decoding := (Value.decode_consults decodes).within_ends
    (⟨⟨some leaf, passed⟩, session⟩ : Holding Cursor σ) pages_eq
  apply Ends.bind (Ends.mono decoding (fun _ _ => id) ?_)
  · rintro _ ⟨_, later⟩ ⟨rfl, rfl, still⟩
    refine ⟨still, ?_⟩
    rw [List.drop_eq_getElem_cons inside, List.cons_append]
    exact Passes.some known (Before.within sheets_eq next_eq holds inside)
  · rintro failure ⟨_, later⟩ ⟨rfl, denied⟩
    exact ⟨denied, Before.within sheets_eq next_eq holds (Nat.le_of_lt inside)⟩

/-- From within a leaf the next entry is passed, or the end is reached. -/
theorem advanceWithin_ends (retains : Retains limit pages tree.anchor outline contents)
    {front back : List Sheet} {sheet : Sheet} {leaf : Leaf} {passed : Nat}
    (sheets_eq : outline.sheets = front ++ sheet :: back) (next_eq : leaf.next = sheet.next)
    (holds : leaf.Holds sheet.records) (inside : passed ≤ sheet.records.length) {steps : Nat}
    (enough : back.length ≤ steps) (session : Session σ) (pages_eq : session.pages = pages) :
    Ends (advanceWithin tree steps ⟨⟨some leaf, passed⟩, session⟩)
      (fun entry after => session.Still after.session ∧
        Passes outline contents after.held
          (sheet.records.drop passed ++ back.flatMap Sheet.records) entry)
      (fun failure after => session.Denied failure after.session ∧
        Before outline after.held
          (sheet.records.drop passed ++ back.flatMap Sheet.records)) := by
  -- By induction on the leaves that follow: where one has been passed, the next one is read.
  induction back generalizing front sheet leaf passed steps session with
  | nil =>
      rcases Nat.lt_or_eq_of_le inside with within | atEnd
      · exact advanceWithin_entry retains sheets_eq next_eq holds within steps session pages_eq
      have counted : ¬ passed < leaf.count := by
        rw [holds.count_eq, atEnd]
        exact Nat.lt_irrefl _
      have isLast : leaf.next = tree.anchor.sentinel :=
        next_eq.trans ((retains.next_eq_sentinel_iff sheets_eq).mpr rfl)
      unfold advanceWithin
      rw [HoldingM.held_bind]
      simp only [if_neg counted, if_pos isLast]
      refine ⟨Still.refl session, ?_⟩
      rw [atEnd, List.drop_length]
      exact Passes.none rfl
  | cons following others ih =>
      rcases Nat.lt_or_eq_of_le inside with within | atEnd
      · exact advanceWithin_entry retains sheets_eq next_eq holds within steps session pages_eq
      cases steps with
      | zero => simp at enough
      | succ steps =>
          have counted : ¬ passed < leaf.count := by
            rw [holds.count_eq, atEnd]
            exact Nat.lt_irrefl _
          have notLast : leaf.next ≠ tree.anchor.sentinel := by
            rw [next_eq]
            exact mt (retains.next_eq_sentinel_iff sheets_eq).mp (List.cons_ne_nil _ _)
          rcases retains.next_fetched sheets_eq with ⟨nextLeaf, fetched, nextNext, nextHolds⟩
          rw [← next_eq] at fetched
          have moved : outline.sheets = (front ++ [sheet]) ++ following :: others := by
            simp [sheets_eq]
          have further : others.length ≤ steps := Nat.le_of_succ_le_succ enough
          -- Of this leaf nothing is left, so what lies in front is what the following ones hold.
          have rest_eq : sheet.records.drop passed ++ (following :: others).flatMap Sheet.records =
              following.records.drop 0 ++ others.flatMap Sheet.records := by
            rw [atEnd, List.drop_length]
            rfl
          unfold advanceWithin
          rw [HoldingM.held_bind]
          simp only [if_neg counted, if_neg notLast]
          have reading := (Consults.readLeaf fetched).within_ends
            (⟨⟨some leaf, passed⟩, session⟩ : Holding Cursor σ) pages_eq
          apply Ends.bind (Ends.mono reading (fun _ _ => id) ?_)
          · rintro _ ⟨_, later⟩ ⟨rfl, rfl, still⟩
            rw [HoldingM.hold_bind, rest_eq]
            apply Ends.mono (ih moved nextNext nextHolds (Nat.zero_le _) further later
              (still.pages_eq.trans pages_eq))
            · rintro entry after ⟨stillAfter, passes⟩
              exact ⟨Still.trans still stillAfter, passes⟩
            · rintro failure after ⟨denied, stands⟩
              exact ⟨Still.denied still denied, stands⟩
          · rintro failure ⟨_, later⟩ ⟨rfl, denied⟩
            exact ⟨denied, Before.within sheets_eq next_eq holds inside⟩

/-- Advancing passes the next entry. If the pager fails, the cursor may have gone on to the leaf of
the entry, but it has not passed it. -/
theorem advance_ends (retains : Retains limit pages tree.anchor outline contents) {cursor : Cursor}
    {rest : List Record} (stands : Before outline cursor rest) (session : Session σ)
    (pages_eq : session.pages = pages) :
    Ends (advance tree ⟨cursor, session⟩)
      (fun entry after => session.Still after.session ∧
        Passes outline contents after.held rest entry)
      (fun failure after => session.Denied failure after.session ∧
        Before outline after.held rest) := by
  cases stands with
  | atEnd passed =>
      unfold advance advanceWithin
      exact ⟨Still.refl session, Passes.none rfl⟩
  | within sheets_eq next_eq holds inside =>
      have width := retains.width_lt
      rw [sheets_eq, List.length_append, List.length_cons] at width
      exact advanceWithin_ends retains sheets_eq next_eq holds inside (by omega) session pages_eq

theorem next_ends (retains : Retains limit pages tree.anchor outline contents) {cursor : Cursor}
    {rest : List Record} (stands : Before outline cursor rest) (session : Session σ)
    (pages_eq : session.pages = pages) :
    Ends (next tree ⟨cursor, session⟩)
      (fun entry after => session.Still after.session ∧
        Passes outline contents after.held rest entry)
      (fun failure after => session.Denied failure after.session ∧ after.held.leaf = none) := by
  apply Ends.tryCatch (advance_ends retains stands session pages_eq)
  rintro failure after ⟨denied, _⟩
  rcases denied.byPager with ⟨cause, rfl⟩
  exact ⟨⟨⟨cause, rfl⟩, ⟨denied.still.pages_eq, denied.still.calm⟩, denied.stormy⟩, rfl⟩

theorem start_consults (retains : Retains limit pages tree.anchor outline contents) :
    Consults pages (start tree : TreeM σ Cursor) fun cursor =>
      Before outline cursor (outline.sheets.flatMap Sheet.records) := by
  apply Consults.bind retains.leftmostLeaf_consults
  rintro leaf ⟨sheet, rest, sheets_eq, next_eq, holds⟩
  apply Consults.pure
  have fromFirst : outline.sheets = [] ++ sheet :: rest := sheets_eq
  have stands := Before.within fromFirst next_eq holds (Nat.zero_le _)
  rw [sheets_eq]
  exact stands

/-- The entries that a cursor gives, one after the other, until there is none or `limit` have been
given. -/
def take (tree : Tree) (limit : Nat) : CursorM σ (List Entry) :=
  match limit with
  | 0 => return []
  | limit + 1 => do
    match ← next tree with
    | none => return []
    | some entry => return entry :: (← take tree limit)

/-- The entry that a record stands for. -/
def entryOf (contents : Contents) (record : Record) : Entry :=
  ⟨record.1, (contents record.1).getD []⟩

omit [Pager σ] [AtomicPager σ] in
theorem entryOf_eq {record : Record} {value : Bytes} (known : contents record.1 = some value) :
    entryOf contents record = ⟨record.1, value⟩ := by
  rw [entryOf, known]
  rfl

/-- A cursor gives as many of the entries before it as it is asked for, in their order. -/
theorem take_ends (retains : Retains limit pages tree.anchor outline contents) {cursor : Cursor}
    {rest : List Record} (stands : Before outline cursor rest) (most : Nat) (session : Session σ)
    (pages_eq : session.pages = pages) :
    Ends (take tree most ⟨cursor, session⟩)
      (fun entries after => session.Still after.session ∧
        entries = (rest.take most).map (entryOf contents))
      (fun failure after => session.Denied failure after.session) := by
  induction most generalizing cursor rest session with
  | zero => exact ⟨Still.refl session, by simp⟩
  | succ most ih =>
      simp only [take]
      apply Ends.bind (Ends.mono (next_ends retains stands session pages_eq) (fun _ _ => id) ?_)
      · rintro entry ⟨later, middle⟩ ⟨still, passes⟩
        cases passes with
        | none ended => exact ⟨still, by simp⟩
        | @some record rest value known further =>
            simp only
            apply Ends.bind (Ends.mono (ih further middle (still.pages_eq.trans pages_eq))
              (fun _ _ => id) ?_)
            · rintro entries after ⟨stillAfter, rfl⟩
              refine ⟨Still.trans still stillAfter, ?_⟩
              rw [List.take_succ_cons, List.map_cons, entryOf_eq known]
            · intro failure after denied
              exact Still.denied still denied
      · rintro failure after ⟨denied, _⟩
        exact denied

end Cursor

/-- The entries that the records of a tree stand for. -/
def Outline.entries (outline : Outline) (contents : Contents) : List Entry :=
  (outline.sheets.flatMap Sheet.records).map (Cursor.entryOf contents)

/-- The entries of a tree in the order of a cursor, at most `limit` of them. -/
def Tree.entries (tree : Tree) (limit : Nat) : TreeM σ (List Entry) := do
  let cursor ← Cursor.start tree
  let (entries, _) ← HoldingM.workOn cursor (Cursor.take tree limit)
  return entries

/-- Entries list a map: in ascending order of keys, every binding of it once. -/
structure Lists (contents : Contents) (entries : List Entry) : Prop where
  ascending : Ascending Entry.key entries
  mem_iff : ∀ entry, entry ∈ entries ↔ contents entry.key = some entry.value

/-- Records in the order of their keys list what their values decode to. -/
theorem Means.lists {records : List Record} (means : Means pages records contents)
    (ascending : Ascending Prod.fst records) :
    Lists contents (records.map (Cursor.entryOf contents)) := by
  constructor
  · exact List.pairwise_map.mpr ascending
  · intro entry
    constructor
    · intro member
      rcases List.mem_map.mp member with ⟨record, inRecords, rfl⟩
      rcases means.decoded record inRecords with ⟨value, known, _⟩
      simp [Cursor.entryOf, known]
    · intro known
      rcases means.covered _ _ known with ⟨record, inRecords, key_eq⟩
      refine List.mem_map.mpr ⟨record, inRecords, ?_⟩
      cases entry
      simp only at key_eq known
      simp [Cursor.entryOf, key_eq, known]

namespace Retains

theorem lists (retains : Retains limit pages tree.anchor outline contents) :
    Lists contents (outline.entries contents) :=
  retains.means.lists retains.shelf.ordered.ascending

/-- Every binding of the contents is passed once, in the order of the keys. -/
theorem entries_consults (retains : Retains limit pages tree.anchor outline contents) (most : Nat) :
    Consults pages (tree.entries most : TreeM σ (List Entry))
      (· = (outline.entries contents).take most) := by
  apply Consults.bind (Cursor.start_consults retains)
  intro cursor stands session pages_eq
  have taking : Ends (HoldingM.workOn cursor (Cursor.take tree most) session)
      (fun given after => session.Still after ∧ given.1 =
        ((outline.sheets.flatMap Sheet.records).take most).map (Cursor.entryOf contents))
      session.Denied :=
    HoldingM.workOn_ends (Cursor.take_ends retains stands most session pages_eq)
  apply Ends.bind taking
  rintro ⟨entries, last⟩ after ⟨still, entries_eq⟩
  refine ⟨?_, still⟩
  rw [Outline.entries, ← List.map_take]
  exact entries_eq

end Retains

end PagedMap
