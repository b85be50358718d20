import PagedMap.Proofs.Tree.Lookups

/-!
# A record is written to a leaf

Where a record is written, a leaf is replaced by one that has the record, or by two that share the
records if the leaf was split. The leaves stay in order, and the chain leads on to the new leaf.
-/

namespace PagedMap

open PageList (fetch)

/-- A leaf and those to its right share records, and take the place of another leaf. -/
structure Replaces (limit : Nat) (records : List Record) (sheet first : Sheet)
    (others : List Sheet) : Prop where
  link_eq : first.link = sheet.link
  records_eq : records = first.records ++ others.flatMap Sheet.records
  filled : first.records ≠ []
  headed : ∀ other ∈ others, other.Headed
  linked : Chained first.next others sheet.next
  slim : ∀ other ∈ first :: others, other.records.length ≤ limit
  distinct : (others.map Sheet.index).Nodup

variable {limit : Nat} {pages later : List Page} {front back others : List Sheet}
  {sheet first : Sheet} {less same more : List Record} {key encoded : Bytes}
  {sheets : List Sheet} {sentinel : PageIndex}

namespace Spot

/-- A key that reaches a leaf is no less than the least key there, so with the key written the least
key is the same. -/
theorem head_write (spot : Spot sheets key front sheet back less same more)
    (headed : sheet.Headed) (encoded : Bytes) :
    (less ++ (key, encoded) :: more).head?.map Prod.fst = some sheet.low := by
  rcases headed.exists_head with ⟨value, rest, head_eq⟩
  rw [spot.records_eq] at head_eq
  cases less with
  | cons record others =>
      injection head_eq with first_eq _
      rw [first_eq]
      rfl
  | nil =>
      rcases spot.around.same with rfl | ⟨old, rfl⟩
      · have past := spot.around.more (sheet.low, value) (by
          rw [List.nil_append, List.nil_append] at head_eq
          simp [head_eq])
        have reached := spot.reached
        simp only at past
        grind
      · injection head_eq with first_eq _
        injection first_eq with low_eq _
        rw [← low_eq]
        rfl

theorem records_write
    (replaces : Replaces limit (less ++ (key, encoded) :: more) sheet first others)
    (front back : List Sheet) :
    (front ++ first :: (others ++ back)).flatMap Sheet.records =
      (front.flatMap Sheet.records ++ less) ++
        (key, encoded) :: (more ++ back.flatMap Sheet.records) := by
  have records_eq := replaces.records_eq
  rw [List.flatMap_append, List.flatMap_cons, List.flatMap_append, List.append_assoc,
    ← List.append_assoc first.records, ← records_eq]
  simp only [List.append_assoc, List.cons_append]

end Spot

/-- With an entry written, and the leaf perhaps replaced by two, the leaves are in order still. -/
theorem Ordered.write (ordered : Ordered sheets)
    (spot : Spot sheets key front sheet back less same more)
    (replaces : Replaces limit (less ++ (key, encoded) :: more) sheet first others) :
    Ordered (front ++ first :: (others ++ back)) := by
  have ascending := ordered.ascending
  rw [spot.all_eq] at ascending
  rw [spot.sheets_eq] at ordered
  apply ordered.replace (congrArg Link.low replaces.link_eq) replaces.filled
  · rw [Spot.records_write replaces]
    exact spot.wide.ascending_write ascending encoded
  · intro behind
    have head_eq := spot.head_write (ordered.headed behind) encoded
    have low_eq : first.low = sheet.low := congrArg Link.low replaces.link_eq
    rcases List.exists_cons_of_ne_nil replaces.filled with ⟨record, rest, filled_eq⟩
    rw [replaces.records_eq, filled_eq] at head_eq
    rw [Sheet.Headed, filled_eq, low_eq]
    exact head_eq
  · exact replaces.headed

theorem Chained.replace {start last : PageIndex} {records : List Record}
    (chained : Chained start (front ++ sheet :: back) last)
    (replaces : Replaces limit records sheet first others) :
    Chained start (front ++ first :: (others ++ back)) last := by
  rw [chained_append] at chained ⊢
  rcases chained with ⟨middle, before, index_eq, behind⟩
  refine ⟨middle, before, ?_, ?_⟩
  · rw [← index_eq]
    exact congrArg Link.index replaces.link_eq
  · rw [chained_append]
    exact ⟨sheet.next, replaces.linked, behind⟩

/-- The chain of leaves is in order again when the leaves that came in are stored. -/
theorem Shelf.write (shelf : Shelf limit pages sheets sentinel)
    (spot : Spot sheets key front sheet back less same more)
    (replaces : Replaces limit (less ++ (key, encoded) :: more) sheet first others)
    (stored : ∀ other ∈ front ++ first :: (others ++ back), other.Stored later)
    {last : Page} (ended : fetch pages sentinel = some last)
    (isNew : ∀ other ∈ others, fetch pages other.index = none)
    (small : key.length ≤ maxKeySize ∧ Leaf.recordSize (key, encoded) ≤ maxInlineEntry) :
    Shelf limit later (front ++ first :: (others ++ back)) sentinel := by
  have index_eq : first.index = sheet.index := congrArg Link.index replaces.link_eq
  refine ⟨shelf.ordered.write spot replaces, stored, ?_, ?_, ?_, ?_⟩
  · intro other member
    rcases List.mem_append.mp member with inFront | member
    · exact shelf.slim other (by simp [spot.sheets_eq, inFront])
    · rcases List.mem_cons.mp member with rfl | member
      · exact replaces.slim _ List.mem_cons_self
      · rcases List.mem_append.mp member with inOthers | inBack
        · exact replaces.slim other (List.mem_cons_of_mem _ inOthers)
        · exact shelf.slim other (by simp [spot.sheets_eq, inBack])
  · rcases shelf.chained with ⟨start, chained⟩
    rw [spot.sheets_eq] at chained
    exact ⟨start, chained.replace replaces⟩
  · -- The new leaves are on pages that were not there, so no page is used twice.
    have fetchedOld : ∀ index ∈ sentinel :: sheets.map Sheet.index,
        ∃ page, fetch pages index = some page := by
      intro index member
      rcases List.mem_cons.mp member with rfl | member
      · exact ⟨last, ended⟩
      · rcases List.mem_map.mp member with ⟨other, inSheets, rfl⟩
        rcases shelf.stored other inSheets with ⟨leaf, fetched, _⟩
        exact ⟨_, fetched⟩
    have distinct := shelf.distinct
    rw [spot.sheets_eq] at distinct fetchedOld
    have replaced : (sentinel :: front.map Sheet.index ++
        sheet.index :: (others.map Sheet.index ++ back.map Sheet.index)).Nodup := by
      apply nodup_replace (by simpa using distinct) replaces.distinct
      intro index isOther isOld
      rcases List.mem_map.mp isOther with ⟨other, inOthers, rfl⟩
      rcases fetchedOld _ (by simpa using isOld) with ⟨page, fetched⟩
      exact PageList.ne_of_fetch fetched (isNew other inOthers) rfl
    simpa [index_eq] using replaced
  · intro record member
    rw [Spot.records_write replaces] at member
    have smallOld := shelf.small
    rw [spot.all_eq] at smallOld
    rcases List.mem_append.mp member with inLess | member
    · exact smallOld record
        (by simp only [List.mem_append] at inLess ⊢; exact Or.inl (Or.inl inLess))
    · rcases List.mem_cons.mp member with rfl | inMore
      · exact small
      · exact smallOld record (List.mem_append_right _ inMore)

/-! ## Short keys -/

theorem Shelf.low_small (shelf : Shelf limit pages sheets sentinel) (member : sheet ∈ sheets) :
    sheet.low.length ≤ maxKeySize := by
  rcases shelf.ordered.leftmost with ⟨head, rest, rfl, low_eq, _, headed⟩
  rcases List.mem_cons.mp member with rfl | inRest
  · rw [low_eq]
    exact Nat.zero_le _
  · rcases (headed sheet inRest).exists_head with ⟨value, others, records_eq⟩
    apply (shelf.small (sheet.low, value) ?_).1
    exact List.mem_flatMap_of_mem member (by simp [records_eq])

theorem Shelf.links_small (shelf : Shelf limit pages sheets sentinel) :
    ∀ link ∈ sheets.map Sheet.link, link.low.length ≤ maxKeySize := by
  intro link member
  rcases List.mem_map.mp member with ⟨sheet, inSheets, rfl⟩
  exact shelf.low_small inSheets

/-- With a small record written, all records of the leaf are small. -/
theorem Shelf.small_write (shelf : Shelf limit pages sheets sentinel)
    (spot : Spot sheets key front sheet back less same more)
    (small : key.length ≤ maxKeySize ∧ Leaf.recordSize (key, encoded) ≤ maxInlineEntry) :
    ∀ record ∈ less ++ (key, encoded) :: more,
      record.1.length ≤ maxKeySize ∧ Leaf.recordSize record ≤ maxInlineEntry := by
  have inSheets : sheet ∈ sheets := by simp [spot.sheets_eq]
  have own : ∀ record ∈ less ++ same ++ more,
      record.1.length ≤ maxKeySize ∧ Leaf.recordSize record ≤ maxInlineEntry := by
    intro record member
    rw [← spot.records_eq] at member
    exact shelf.small record (List.mem_flatMap_of_mem inSheets member)
  refine forall_mem_insert.mpr ⟨small, fun record member => own record ?_⟩
  rcases List.mem_append.mp member with inLess | inMore
  · simp [inLess]
  · simp [inMore]

end PagedMap
