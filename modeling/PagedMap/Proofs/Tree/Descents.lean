import PagedMap.Tree.Basic
import PagedMap.Proofs.Tree.Consulting
import PagedMap.Proofs.Tree.Trellises

/-!
# Ways from the root to a leaf

A search goes down level by level. On every level it cuts the row of pages in two: the page where it
is ends the first part. What a search finds is a leaf that ends the first part of the lowest row,
and the way that it took, on which every node has the page of the level below as one of its
children.
-/

namespace PagedMap

open PageList (fetch)

/-- The way from a page up to the root. On every level the row of pages is cut behind the page that
is on the way. -/
inductive Trail : List Link → List Link → List Step → List Level → Prop
  | top (front back : List Link) : Trail front back [] []
  | through {left right : Level} {group : Group} {near far : List Link} {step : Step}
      {path : List Step} {above : List Level} (links_eq : group.links = near ++ far)
      (nonempty : near ≠ []) (index_eq : step.index = group.index)
      (taken_eq : step.taken = (near.length : Int) - 2)
      (holds : step.node.Holds group.keys group.children)
      (rest : Trail (left.map Group.link ++ [group.link]) (right.map Group.link) path above) :
      Trail (left.flatMap Group.links ++ near) (far ++ right.flatMap Group.links) (step :: path)
        ((left ++ group :: right) :: above)

/-- The nodes on the way are nodes of the levels, in the same order. -/
theorem Trail.indices_sublist {front back : List Link} {path : List Step} {levels : List Level}
    (trail : Trail front back path levels) :
    (path.map Step.index).Sublist (levels.flatten.map Group.index) := by
  induction trail with
  | top front back => exact List.Sublist.refl _
  | @through left right group near far step path above _ _ index_eq _ _ _ ih =>
      have behind : (above.flatten.map Group.index).Sublist
          ((right ++ above.flatten).map Group.index) :=
        (List.sublist_append_right _ _).map _
      have within : (step.index :: path.map Step.index).Sublist
          ((group :: (right ++ above.flatten)).map Group.index) := by
        rw [index_eq]
        exact (ih.trans behind).cons_cons group.index
      rw [List.flatten_cons, List.append_assoc, List.cons_append]
      exact within.trans ((List.sublist_append_right _ _).map _)

theorem Trail.exists_group {front back : List Link} {path : List Step} {levels : List Level}
    {step : Step} (trail : Trail front back path levels) (member : step ∈ path) :
    ∃ group ∈ levels.flatten, group.index = step.index :=
  List.mem_map.mp (trail.indices_sublist.subset (List.mem_map_of_mem member))

/-- A row of pages ends with the page of an index. -/
def EndsAt (row : List Link) (index : PageIndex) : Prop :=
  ∃ most low, row = most ++ [⟨low, index⟩]

theorem EndsAt.append {front row : List Link} {index : PageIndex} (ends : EndsAt row index) :
    EndsAt (front ++ row) index := by
  rcases ends with ⟨most, low, rfl⟩
  exact ⟨front ++ most, low, (List.append_assoc ..).symm⟩

theorem exists_endsAt {row : List Link} (nonempty : row ≠ []) : ∃ index, EndsAt row index := by
  rcases List.eq_nil_or_concat row with rfl | ⟨most, last, rfl⟩
  · contradiction
  · exact ⟨last.index, most, last.low, List.concat_eq_append⟩

theorem EndsAt.of_append {front row : List Link} {index : PageIndex}
    (ends : EndsAt (front ++ row) index) (nonempty : row ≠ []) : EndsAt row index := by
  rcases exists_endsAt nonempty with ⟨last, rowEnds⟩
  rcases ends with ⟨most, low, row_eq⟩
  rcases rowEnds with ⟨others, lastLow, rfl⟩
  rw [← List.append_assoc] at row_eq
  have same := (List.append_inj' row_eq rfl).2
  exact ⟨others, low, by rw [same]⟩

/-- Where there are no levels, the root is the only page of the row. -/
theorem Rises.eq_of_endsAt {front back : List Link} {root child : PageIndex}
    (rises : Rises (front ++ back) [] [⟨[], root⟩]) (ends : EndsAt front child) :
    front = [⟨[], child⟩] ∧ back = [] := by
  rcases ends with ⟨most, low, rfl⟩
  change most ++ [Link.mk low child] ++ back = [⟨[], root⟩] at rises
  cases most with
  | nil =>
      injection rises with link_eq back_eq
      injection link_eq with low_eq child_eq
      exact ⟨by rw [low_eq]; rfl, back_eq⟩
  | cons first others =>
      have lengths := congrArg List.length rises
      simp at lengths

namespace Tree

variable {σ : Type} [Pager σ] [AtomicPager σ] {pages : List Page} {bottom : List Link}
  {levels : List Level} {choose : Node → Except Fault Int} {Cut : List Link → List Link → Prop}

theorem child_of_near {group : Group} {node : Node} {near far : List Link} {child : PageIndex}
    (holds : node.Holds group.keys group.children) (links_eq : group.links = near ++ far)
    (ends : EndsAt near child) : node.child ((near.length : Int) - 2) = .ok child := by
  rcases ends with ⟨most, low, rfl⟩
  rw [Group.children, links_eq] at holds
  simp only [List.map_append, List.map_cons, List.append_assoc, List.singleton_append] at holds
  apply holds.child_eq
  simp only [List.length_append, List.length_map, List.length_singleton]
  omega

/-- A descent cuts the lowest row of pages as it cuts the rows above. -/
theorem descendFrom_consults (stored : ∀ group ∈ levels.flatten, group.Stored pages)
    (leaves : ∀ link ∈ bottom, ∃ leaf : Leaf, fetch pages link.index = some leaf.toPage)
    (chooses : ∀ left group right (node : Node), (left ++ group :: right) ∈ levels →
      node.Holds group.keys group.children →
      Cut (left.map Group.link ++ [group.link]) (right.map Group.link) →
      ∃ near far, group.links = near ++ far ∧ near ≠ [] ∧
        choose node = .ok ((near.length : Int) - 2) ∧
        Cut (left.flatMap Group.links ++ near) (far ++ right.flatMap Group.links))
    (below passed : List Level) (levels_eq : levels = below.reverse ++ passed)
    {front back : List Link} {path : List Step} {index : PageIndex}
    (rises : Rises bottom below.reverse (front ++ back)) (cut : Cut front back)
    (trail : Trail front back path passed) (ends : EndsAt front index) {limit : Nat}
    (enough : below.length < limit) :
    Consults pages (descendFrom choose limit index path : TreeM σ Descent) fun found =>
      ∃ front back, bottom = front ++ back ∧ Cut front back ∧
        Trail front back found.path levels ∧ EndsAt front found.index ∧
        fetch pages found.index = some found.leaf.toPage := by
  -- By induction on the levels still to pass. The way cuts each row in two, and the cut of one row
  -- decides where the row below it is cut.
  induction below generalizing passed front back path index limit with
  | nil =>
      cases limit with
      | zero => omega
      | succ limit =>
          rcases ends with ⟨most, low, rfl⟩
          subst rises
          rcases leaves ⟨low, index⟩ (by simp) with ⟨leaf, fetched⟩
          rw [descendFrom]
          apply Consults.bind (Consults.readView fetched leaf.view_toPage)
          rintro _ rfl
          exact Consults.pure ⟨_, _, rfl, cut, by simpa [levels_eq] using trail,
            ⟨most, low, rfl⟩, fetched⟩
  | cons level below ih =>
      cases limit with
      | zero => omega
      | succ limit =>
          rw [List.reverse_cons, rises_append] at rises
          rcases rises with ⟨middle, lower, divides, links_eq⟩
          rcases ends with ⟨most, low, rfl⟩
          change level.map Group.link = _ at links_eq
          rw [List.append_assoc, List.map_eq_append_iff] at links_eq
          rcases links_eq with ⟨left, rest, rfl, rfl, links_eq⟩
          rcases List.map_eq_cons_iff.mp links_eq with ⟨group, right, rfl, link_eq, rfl⟩
          rw [← link_eq] at cut trail
          have member : (left ++ group :: right) ∈ levels := by simp [levels_eq]
          have index_eq : index = group.index := (congrArg Link.index link_eq).symm
          rcases stored group (List.mem_flatten_of_mem member (by simp)) with
            ⟨node, fetched, holds⟩
          rcases chooses left group right node member holds cut with
            ⟨near, far, near_eq, nonempty, chosen, nextCut⟩
          rcases exists_endsAt nonempty with ⟨child, nearEnds⟩
          rw [descendFrom, index_eq]
          apply Consults.bind (Consults.readView fetched node.view_toPage)
          rintro _ rfl
          apply Consults.lift_bind chosen
          apply Consults.lift_bind (child_of_near holds near_eq nearEnds)
          apply ih ((left ++ group :: right) :: passed) (by simp [levels_eq]) ?_ nextCut ?_
            nearEnds.append (by simpa using enough)
          · have row_eq : left.flatMap Group.links ++ near ++ (far ++ right.flatMap Group.links) =
                middle := by
              rw [← divides]
              simp [near_eq]
            rw [row_eq]
            exact lower
          · exact Trail.through near_eq nonempty rfl rfl holds trail

/-- Going down by the first child leads to the first page of the lowest row, also where not every
page of a row is linked to. -/
theorem descendFrom_first (leaves : ∀ link ∈ bottom,
      ∃ leaf : Leaf, fetch pages link.index = some leaf.toPage) (below : List Level)
    (stored : ∀ group ∈ below.flatten, group.Stored pages)
    (linked : ∀ group ∈ below.flatten, group.links ≠ []) {top : List Link} {path : List Step}
    {link : Link} (leads : Leads bottom below.reverse top) (starts : top.head? = some link)
    {limit : Nat} (enough : below.length < limit) :
    Consults pages (descendFrom (fun _ => .ok (-1)) limit link.index path : TreeM σ Descent)
      fun found => bottom.head?.map Link.index = some found.index ∧
        fetch pages found.index = some found.leaf.toPage := by
  -- By induction on the levels still to pass. The first link of a row is on the first node above.
  induction below generalizing top path link limit with
  | nil =>
      cases limit with
      | zero => omega
      | succ limit =>
          have head_eq : bottom.head? = some link := (Heads.head_eq leads).symm.trans starts
          rcases leaves link (List.mem_of_head? head_eq) with ⟨leaf, fetched⟩
          rw [descendFrom]
          apply Consults.bind (Consults.readView fetched leaf.view_toPage)
          rintro _ rfl
          exact Consults.pure ⟨by rw [head_eq]; rfl, fetched⟩
  | cons level below ih =>
      cases limit with
      | zero => omega
      | succ limit =>
          rw [List.reverse_cons, leads_concat] at leads
          rcases leads with ⟨lower, heads⟩
          have rowStarts := heads.head_eq.symm.trans starts
          rcases List.exists_cons_of_ne_nil (l := level) (by rintro rfl; contradiction) with
            ⟨group, right, rfl⟩
          injection rowStarts with link_eq
          rcases stored group (by simp) with ⟨node, fetched, holds⟩
          rcases List.exists_cons_of_ne_nil (linked group (by simp)) with ⟨first, rest, links_eq⟩
          have ends : EndsAt [first] first.index := ⟨[], first.low, rfl⟩
          have chosen : node.child (-1) = .ok first.index := child_of_near holds links_eq ends
          rw [descendFrom, ← link_eq]
          apply Consults.bind (Consults.readView fetched node.view_toPage)
          rintro _ rfl
          apply Consults.lift_bind rfl
          apply Consults.lift_bind chosen
          apply ih ?_ ?_ lower ?_ (Nat.lt_of_succ_lt_succ enough)
          · exact fun other member => stored other (by simp [member])
          · exact fun other member => linked other (by simp [member])
          · rw [List.flatMap_cons, links_eq]
            rfl

end Tree

end PagedMap
