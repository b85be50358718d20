import PagedMap.Proofs.Tree.Descents
import PagedMap.Proofs.Tree.Keeping

/-!
# Looking things up

On pages that keep a tree, a search goes down to the leaf where a key belongs, and finds the value
that the contents give it.
-/

namespace PagedMap

open PageList (fetch)

/-- The leaf where a search ends, among the leaves of the outline. -/
structure Landing (pages : List Page) (outline : Outline) (found : Descent) (front : List Sheet)
    (sheet : Sheet) (back : List Sheet) : Prop where
  sheets_eq : outline.sheets = front ++ sheet :: back
  index_eq : found.index = sheet.index
  next_eq : found.leaf.next = sheet.next
  fetched : fetch pages sheet.index = some found.leaf.toPage
  holds : found.leaf.Holds sheet.records
  trail : Trail ((front ++ [sheet]).map Sheet.link) (back.map Sheet.link) found.path outline.levels

theorem Landing.keep {pages later : List Page} {outline : Outline} {found : Descent}
    {front back : List Sheet} {sheet : Sheet}
    (landing : Landing pages outline found front sheet back) (includes : Includes pages later) :
    Landing later outline found front sheet back :=
  { landing with fetched := includes _ _ landing.fetched }

/-- The leaf where a key belongs, and the place of the key among its records and among all
records. -/
structure Spot (sheets : List Sheet) (key : Bytes) (front : List Sheet) (sheet : Sheet)
    (back : List Sheet) (less same more : List Record) : Prop where
  sheets_eq : sheets = front ++ sheet :: back
  records_eq : sheet.records = less ++ same ++ more
  reached : sheet.low ≤ key
  around : Around key less same more
  wide : Around key (front.flatMap Sheet.records ++ less) same
    (more ++ back.flatMap Sheet.records)

theorem Spot.all_eq {sheets front back : List Sheet} {sheet : Sheet} {key : Bytes}
    {less same more : List Record} (spot : Spot sheets key front sheet back less same more) :
    sheets.flatMap Sheet.records =
      (front.flatMap Sheet.records ++ less) ++ same ++ (more ++ back.flatMap Sheet.records) := by
  rw [spot.sheets_eq, List.flatMap_append, List.flatMap_cons, spot.records_eq]
  simp only [List.append_assoc]

/-- A row of pages is cut where a key belongs. -/
abbrev CutAt (key : Bytes) (front back : List Link) : Prop := CutBy Link.low key front back

/-- A node routes a key to the child where the row of children is cut. -/
theorem CutBy.route_eq {key : Bytes} {left right : Level} {group : Group} {node : Node}
    (cut : CutAt key (left.map Group.link ++ [group.link]) (right.map Group.link))
    (ascends : Ascends ((left ++ group :: right).flatMap Group.links))
    (nonempty : ∀ other ∈ left ++ group :: right, other.links ≠ [])
    (holds : node.Holds group.keys group.children) :
    ∃ near far, group.links = near ++ far ∧ near ≠ [] ∧
      node.route key = .ok ((near.length : Int) - 2) ∧
      CutAt key (left.flatMap Group.links ++ near) (far ++ right.flatMap Group.links) := by
  rw [List.flatMap_append, List.flatMap_cons] at ascends
  rcases List.pairwise_append.mp ascends with ⟨_, ownAndBehind, inFront⟩
  rcases List.pairwise_append.mp ownAndBehind with ⟨own, rightAscends, _⟩
  rcases Group.exists_head (nonempty group (by simp)) with ⟨index, others, links_eq⟩
  have reached : group.low ≤ key := cut.le group.link (by simp)
  -- The links of the node are cut by the key, and the first one, which is the least, lies before
  -- the cut.
  rcases Ascending.exists_cut own key with ⟨near, far, near_eq, inside⟩
  have nearNonempty : near ≠ [] := by
    rintro rfl
    rw [List.nil_append] at near_eq
    have past := inside.gt ⟨group.low, index⟩ (by rw [← near_eq, links_eq]; simp)
    simp only at past
    grind
  rcases List.exists_cons_of_ne_nil nearNonempty with ⟨first, rest, rfl⟩
  refine ⟨first :: rest, far, near_eq, nearNonempty, ?_, ?_, ?_⟩
  · have keys_eq : group.keys = rest.map Link.low ++ far.map Link.low := by
      rw [Group.keys, near_eq, List.cons_append, List.tail_cons, List.map_append]
    rw [keys_eq] at holds
    rw [holds.route_eq ⟨?_, ?_⟩]
    · apply congrArg Except.ok
      simp only [List.length_map, List.length_cons]
      omega
    · intro low member
      rcases List.mem_map.mp member with ⟨link, inRest, rfl⟩
      exact inside.le link (List.mem_cons_of_mem _ inRest)
    · intro low member
      rcases List.mem_map.mp member with ⟨link, inFar, rfl⟩
      exact inside.gt link inFar
  · intro link member
    rcases List.mem_append.mp member with inLeft | inNear
    · have before := inFront link inLeft ⟨group.low, index⟩ (by rw [links_eq]; simp)
      simp only at before
      grind
    · exact inside.le link inNear
  · intro link member
    rcases List.mem_append.mp member with inFar | inRight
    · exact inside.gt link inFar
    · rcases List.mem_flatMap.mp inRight with ⟨other, otherRight, inOther⟩
      have past : key < other.low := cut.gt other.link (List.mem_map_of_mem otherRight)
      have otherAscends : Ascends other.links := by
        rcases List.append_of_mem otherRight with ⟨before, after, rfl⟩
        exact List.Pairwise.sublist (by simp) rightAscends
      have least := Group.low_le otherAscends link inOther
      grind

namespace Keeps

variable {σ : Type} [Pager σ] [AtomicPager σ] {limit : Nat} {pages : List Page} {tree : Tree}
  {outline : Outline} {contents : Contents}

theorem exists_sheet {sheets : List Sheet} {front back : List Link} {index : PageIndex}
    (row_eq : sheets.map Sheet.link = front ++ back) (ends : EndsAt front index) :
    ∃ before sheet after, sheets = before ++ sheet :: after ∧ sheet.index = index ∧
      front = (before ++ [sheet]).map Sheet.link ∧ back = after.map Sheet.link := by
  rcases ends with ⟨most, low, rfl⟩
  rw [List.append_assoc, List.map_eq_append_iff] at row_eq
  rcases row_eq with ⟨before, rest, rfl, rfl, rest_eq⟩
  rcases List.map_eq_cons_iff.mp rest_eq with ⟨sheet, after, rfl, link_eq, rfl⟩
  refine ⟨before, sheet, after, rfl, congrArg Link.index link_eq, ?_, rfl⟩
  rw [List.map_append, ← link_eq]
  rfl

/-- A search that has followed the levels down lands on a leaf of the outline, with the leaves
before and after it as the levels divide them. -/
theorem landing (keeps : Keeps limit pages tree outline contents) {front back : List Link}
    {found : Descent} (row_eq : outline.sheets.map Sheet.link = front ++ back)
    (trail : Trail front back found.path outline.levels) (ends : EndsAt front found.index)
    (fetched : fetch pages found.index = some found.leaf.toPage) :
    ∃ before sheet after, Landing pages outline found before sheet after ∧
      front = (before ++ [sheet]).map Sheet.link ∧ back = after.map Sheet.link := by
  rcases exists_sheet row_eq ends with ⟨before, sheet, after, sheets_eq, index_eq, rfl, rfl⟩
  rcases keeps.shelf.stored sheet (by simp [sheets_eq]) with ⟨leaf, stored, next_eq, holds⟩
  rw [index_eq, fetched] at stored
  injection stored with same
  rw [← Leaf.toPage_inj same] at next_eq holds
  exact ⟨before, sheet, after,
    ⟨sheets_eq, index_eq.symm, next_eq, by rw [index_eq]; exact fetched, holds, trail⟩, rfl, rfl⟩

/-- A search ends at the leaf where its key belongs. -/
theorem descend_consults (keeps : Keeps limit pages tree outline contents) (key : Bytes) :
    Consults pages (tree.descend key : TreeM σ Descent) fun found =>
      ∃ front sheet back, Landing pages outline found front sheet back ∧ sheet.low ≤ key ∧
        ∀ other ∈ back, key < other.low := by
  have scaffold := keeps.scaffold
  have everywhere := scaffold.rises.ascends keeps.shelf.ordered.ascends scaffold.links_ne_nil
  have rises : Rises (outline.sheets.map Sheet.link) outline.levels.reverse.reverse
      ([⟨[], tree.anchor.root⟩] ++ []) := by
    rw [List.reverse_reverse, List.append_nil]
    exact scaffold.rises
  have descends : Consults pages (tree.descend key : TreeM σ Descent) fun found =>
      ∃ front back, outline.sheets.map Sheet.link = front ++ back ∧ CutAt key front back ∧
        Trail front back found.path outline.levels ∧ EndsAt front found.index ∧
        fetch pages found.index = some found.leaf.toPage := by
    apply Tree.descendFrom_consults scaffold.stored keeps.retains.leaves ?_
      outline.levels.reverse [] (by simp) rises ?_ (Trail.top _ _) ⟨[], [], rfl⟩
      (by simpa using keeps.retains.height_lt)
    · intro left group right node member holds cut
      apply cut.route_eq (everywhere _ member) ?_ holds
      intro other inLevel
      exact scaffold.links_ne_nil other (List.mem_flatten_of_mem member inLevel)
    · refine ⟨?_, by simp⟩
      intro link member
      rw [List.mem_singleton.mp member]
      exact List.nil_le key
  apply descends.mono
  rintro found ⟨front, back, row_eq, cut, trail, ends, fetched⟩
  rcases keeps.landing row_eq trail ends fetched with ⟨before, sheet, after, landing, rfl, rfl⟩
  refine ⟨before, sheet, after, landing, ?_, ?_⟩
  · exact cut.le sheet.link (by simp)
  · intro other member
    exact cut.gt other.link (List.mem_map_of_mem member)

theorem exists_spot (keeps : Keeps limit pages tree outline contents) {key : Bytes}
    {front back : List Sheet} {sheet : Sheet} (sheets_eq : outline.sheets = front ++ sheet :: back)
    (reached : sheet.low ≤ key) (notReached : ∀ other ∈ back, key < other.low) :
    ∃ less same more, Spot outline.sheets key front sheet back less same more := by
  have ordered := keeps.shelf.ordered
  rw [sheets_eq] at ordered
  have ascending := ordered.ascending
  rw [List.flatMap_append, List.flatMap_cons] at ascending
  have own := (List.pairwise_append.mp (List.pairwise_append.mp ascending).2.1).1
  rcases Around.exists_of_ascending own key with ⟨less, same, more, records_eq, around⟩
  refine ⟨less, same, more, sheets_eq, records_eq, reached, around, ?_⟩
  exact around.widen (ordered.lt_of_front reached) (ordered.gt_of_back notReached)

/-- A key is looked up by going down to its leaf and reading its value there. -/
theorem get?_consults (keeps : Keeps limit pages tree outline contents) (key : Bytes) :
    Consults pages (tree.get? key : TreeM σ (Option Bytes)) (· = contents key) := by
  apply Consults.bind (keeps.descend_consults key)
  rintro found ⟨front, sheet, back, landing, reached, notReached⟩
  rcases keeps.exists_spot landing.sheets_eq reached notReached with ⟨less, same, more, spot⟩
  have means := keeps.means
  rw [spot.all_eq] at means
  have holds := landing.holds
  rw [spot.records_eq] at holds
  apply Consults.lift_bind (spot.around.find_eq holds)
  rcases spot.around.same with rfl | ⟨encoded, rfl⟩
  · rw [means.eq_none spot.wide]
    exact Consults.pure rfl
  · rcases means.eq_some with ⟨value, known, decodes⟩
    rw [List.append_assoc, List.singleton_append] at holds
    have place : (less ++ [(key, encoded)]).length - 1 = less.length := by simp
    simp only [ne_eq, List.cons_ne_nil, not_false_eq_true, decide_true, if_true, place]
    apply Consults.lift_bind holds.value_eq
    apply Consults.bind (Value.decode_consults decodes)
    rintro _ rfl
    exact Consults.pure known.symm

theorem contains_consults (keeps : Keeps limit pages tree outline contents) (key : Bytes) :
    Consults pages (tree.contains key : TreeM σ Bool) (· = (contents key).isSome) := by
  apply Consults.bind (keeps.descend_consults key)
  rintro found ⟨front, sheet, back, landing, reached, notReached⟩
  rcases keeps.exists_spot landing.sheets_eq reached notReached with ⟨less, same, more, spot⟩
  have means := keeps.means
  rw [spot.all_eq] at means
  have holds := landing.holds
  rw [spot.records_eq] at holds
  apply Consults.lift_bind (spot.around.find_eq holds)
  exact Consults.pure (means.isSome_iff spot.wide).symm

end Keeps

end PagedMap
