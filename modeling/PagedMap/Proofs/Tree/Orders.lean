import PagedMap.Proofs.Tree.Outlines

/-!
# The order of keys in a tree

The least keys of the leaves ascend, and so do those on every level above. A key therefore has one
place in every row of pages: it belongs to the last page whose least key does not come after it.
-/

namespace PagedMap

open PageList (fetch)

/-! ## Rows of links -/

/-- The least keys of a row of pages ascend. -/
abbrev Ascends (row : List Link) : Prop := Ascending Link.low row

theorem Ascending.sublist {α : Type} {keyOf : α → Bytes} {fewer more : List α}
    (ascending : Ascending keyOf more) (sublist : fewer.Sublist more) : Ascending keyOf fewer :=
  List.Pairwise.sublist sublist ascending

theorem Group.exists_head {group : Group} (nonempty : group.links ≠ []) :
    ∃ index rest, group.links = ⟨group.low, index⟩ :: rest := by
  simp only [Group.low]
  cases links_eq : group.links with
  | nil => contradiction
  | cons head rest => exact ⟨head.index, rest, rfl⟩

theorem Group.low_le {group : Group} (ascends : Ascends group.links) :
    ∀ link ∈ group.links, group.low ≤ link.low := by
  intro link member
  rcases exists_head (List.ne_nil_of_mem member) with ⟨index, rest, links_eq⟩
  rw [links_eq] at member ascends
  rcases List.mem_cons.mp member with rfl | inRest
  · exact List.le_refl _
  · have later := (List.pairwise_cons.mp ascends).1 link inRest
    simp only at later
    grind

/-- The least key of a node is that of its first child, so those of a level are among those of the
row below it. -/
theorem lows_sublist {level : Level} (nonempty : ∀ group ∈ level, group.links ≠ []) :
    ((level.map Group.link).map Link.low).Sublist ((level.flatMap Group.links).map Link.low) := by
  induction level with
  | nil => exact List.Sublist.refl _
  | cons group rest ih =>
      have restNonempty : ∀ other ∈ rest, other.links ≠ [] := fun other member =>
        nonempty other (List.mem_cons_of_mem _ member)
      rcases Group.exists_head (nonempty group List.mem_cons_self) with ⟨index, others, links_eq⟩
      rw [List.flatMap_cons, links_eq, List.map_append]
      apply List.Sublist.cons_cons
      apply (ih restNonempty).trans
      exact List.sublist_append_right _ _

theorem ascends_iff {row : List Link} : Ascends row ↔ (row.map Link.low).Pairwise (· < ·) :=
  List.pairwise_map.symm

/-- If the least keys ascend in the lowest row, they do so on every level. -/
theorem Rises.ascends {bottom top : List Link} {levels : List Level}
    (rises : Rises bottom levels top) (ascends : Ascends bottom)
    (nonempty : ∀ group ∈ levels.flatten, group.links ≠ []) :
    ∀ level ∈ levels, Ascends (level.flatMap Group.links) := by
  induction levels generalizing bottom with
  | nil => simp
  | cons level above ih =>
      rcases rises with ⟨divides, rises⟩
      rw [← divides] at ascends
      have levelNonempty : ∀ group ∈ level, group.links ≠ [] := fun group member =>
        nonempty group (by simp [member])
      have next : Ascends (level.map Group.link) := by
        rw [ascends_iff] at ascends ⊢
        exact ascends.sublist (lows_sublist levelNonempty)
      intro other member
      rcases List.mem_cons.mp member with rfl | member
      · exact ascends
      · apply ih rises next ?_ other member
        intro group inAbove
        exact nonempty group (by rw [List.flatten_cons]; exact List.mem_append_right _ inAbove)

/-! ## Leaves -/

theorem Sheet.Headed.exists_head {sheet : Sheet} (headed : sheet.Headed) :
    ∃ value rest, sheet.records = (sheet.low, value) :: rest := by
  simp only [Headed] at headed
  cases records_eq : sheet.records with
  | nil =>
      rw [records_eq] at headed
      contradiction
  | cons head rest =>
      rw [records_eq] at headed
      injection headed with headed
      exact ⟨head.2, rest, by rw [← headed]⟩

/-- The least key of a leaf is that of its first record. -/
theorem lows_sublist_keys {sheets : List Sheet} (headed : ∀ sheet ∈ sheets, sheet.Headed) :
    (sheets.map Sheet.low).Sublist ((sheets.flatMap Sheet.records).map Prod.fst) := by
  induction sheets with
  | nil => exact List.Sublist.refl _
  | cons sheet rest ih =>
      have restHeaded : ∀ other ∈ rest, other.Headed := fun other member =>
        headed other (List.mem_cons_of_mem _ member)
      rcases (headed sheet List.mem_cons_self).exists_head with ⟨value, others, records_eq⟩
      rw [List.flatMap_cons, records_eq, List.map_append]
      apply List.Sublist.cons_cons
      apply (ih restHeaded).trans
      exact List.sublist_append_right _ _

namespace Ordered

variable {sheets front back : List Sheet} {sheet : Sheet} {key : Bytes}

theorem ne_nil (ordered : Ordered sheets) : sheets ≠ [] := by
  rcases ordered.leftmost with ⟨first, rest, rfl, _⟩
  exact List.cons_ne_nil first rest

/-- Links to leaves ascend as the records in the leaves do. -/
theorem ascends (ordered : Ordered sheets) : Ascends (sheets.map Sheet.link) := by
  rcases ordered.leftmost with ⟨first, rest, rfl, low_eq, nonempty, headed⟩
  have ascending := ordered.ascending
  rw [List.flatMap_cons] at ascending
  rcases List.pairwise_append.mp ascending with ⟨_, restAscending, apart⟩
  rw [ascends_iff, List.map_map]
  apply List.Pairwise.cons
  · intro low member
    rcases List.mem_map.mp member with ⟨sheet, inRest, rfl⟩
    rcases Sheet.Headed.exists_head (headed sheet inRest) with ⟨value, others, records_eq⟩
    rcases List.exists_mem_of_ne_nil _ (nonempty (List.ne_nil_of_mem inRest)) with ⟨record, inFirst⟩
    have before := apart record inFirst (sheet.low, value)
      (List.mem_flatMap_of_mem inRest (by simp [records_eq]))
    simp only [Function.comp, Sheet.link, low_eq]
    cases low_eq : sheet.low with
    | nil =>
        rw [low_eq] at before
        exact absurd before (List.not_lt_nil _)
    | cons byte bytes => exact List.nil_lt_cons byte bytes
  · have sublist := lows_sublist_keys headed
    exact (List.pairwise_map.mpr restAscending).sublist sublist

theorem headed (ordered : Ordered (front ++ sheet :: back)) (behind : front ≠ []) :
    sheet.Headed := by
  rcases ordered.leftmost with ⟨first, rest, sheets_eq, _, _, headed⟩
  cases front with
  | nil => contradiction
  | cons head others =>
      injection sheets_eq with _ rest_eq
      exact headed sheet (by rw [← rest_eq]; simp)

/-- A key that reaches a leaf is greater than all keys in the leaves before it. -/
theorem lt_of_front (ordered : Ordered (front ++ sheet :: back)) (reached : sheet.low ≤ key) :
    ∀ record ∈ front.flatMap Sheet.records, record.1 < key := by
  intro record member
  have behind : front ≠ [] := by
    rintro rfl
    simp at member
  rcases (ordered.headed behind).exists_head with ⟨value, others, records_eq⟩
  have ascending := ordered.ascending
  rw [List.flatMap_append, List.flatMap_cons] at ascending
  have before := (List.pairwise_append.mp ascending).2.2 record member (sheet.low, value)
    (by simp [records_eq])
  simp only at before
  grind

/-- A key that reaches no leaf further on is less than all keys in them. -/
theorem gt_of_back (ordered : Ordered (front ++ sheet :: back))
    (notReached : ∀ other ∈ back, key < other.low) :
    ∀ record ∈ back.flatMap Sheet.records, key < record.1 := by
  intro record member
  rcases List.mem_flatMap.mp member with ⟨other, inBack, inRecords⟩
  rcases List.append_of_mem inBack with ⟨before, after, rfl⟩
  have whole : front ++ sheet :: (before ++ other :: after) =
      (front ++ sheet :: before) ++ other :: after := by simp
  have ascending := ordered.ascending
  rw [whole] at ordered ascending
  rcases (ordered.headed (by simp)).exists_head with ⟨value, others, records_eq⟩
  rw [List.flatMap_append, List.flatMap_cons, records_eq] at ascending
  have own := (List.pairwise_append.mp (List.pairwise_append.mp ascending).2.1).1
  have past := notReached other inBack
  rw [records_eq] at inRecords
  rcases List.mem_cons.mp inRecords with rfl | inOthers
  · exact past
  · have later := (List.pairwise_cons.mp own).1 record inOthers
    simp only at later
    grind

/-- A leaf may be replaced by others, if the order of the records stays. -/
theorem replace (ordered : Ordered (front ++ sheet :: back)) {left : Sheet} {more : List Sheet}
    (low_eq : left.low = sheet.low) (nonempty : left.records ≠ [])
    (ascending : Ascending Prod.fst ((front ++ left :: (more ++ back)).flatMap Sheet.records))
    (leftHeaded : front ≠ [] → left.Headed) (moreHeaded : ∀ other ∈ more, other.Headed) :
    Ordered (front ++ left :: (more ++ back)) := by
  refine ⟨ascending, ?_⟩
  rcases ordered.leftmost with ⟨first, rest, sheets_eq, first_low, filled, headed⟩
  cases front with
  | nil =>
      injection sheets_eq with first_eq rest_eq
      subst first_eq rest_eq
      refine ⟨left, more ++ back, rfl, low_eq.trans first_low, fun _ => nonempty, ?_⟩
      intro other member
      rcases List.mem_append.mp member with inMore | inBack
      · exact moreHeaded other inMore
      · exact headed other inBack
  | cons head others =>
      injection sheets_eq with first_eq rest_eq
      subst first_eq rest_eq
      refine ⟨head, others ++ left :: (more ++ back), rfl, first_low, fun _ => ?_, ?_⟩
      · exact filled (by simp)
      · intro other member
        rcases List.mem_append.mp member with inOthers | member
        · exact headed other (by simp [inOthers])
        · rcases List.mem_cons.mp member with rfl | member
          · exact leftHeaded (by simp)
          · rcases List.mem_append.mp member with inMore | inBack
            · exact moreHeaded other inMore
            · exact headed other (by simp [inBack])

end Ordered

end PagedMap
