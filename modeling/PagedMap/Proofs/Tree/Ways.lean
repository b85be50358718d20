import PagedMap.Proofs.Tree.Reaching
import PagedMap.Proofs.Tree.Structure

/-!
# Ways from the root

A way takes one child after the other. In a tree that is kept, ways from the root lead to all nodes
and leaves, and to each of them there is only one way.
-/

namespace PagedMap

open PageList (fetch)

variable {limit depth : Nat} {pages : List Page} {branch : Branch} {root target : PageIndex}
  {path other : List Nat}

/-- If no two items of a list share a property, there is only one place for an item that has it. -/
theorem place_eq_of_pairwise {α : Type} {items : List α} {has : α → Prop} {left right : α}
    {place more : Nat} (apart : items.Pairwise fun left right => has left → ¬ has right)
    (leftThere : items[place]? = some left) (rightThere : items[more]? = some right)
    (leftHas : has left) (rightHas : has right) : place = more := by
  rcases List.getElem?_eq_some_iff.mp leftThere with ⟨leftInside, rfl⟩
  rcases List.getElem?_eq_some_iff.mp rightThere with ⟨rightInside, rfl⟩
  have apart := List.pairwise_iff_getElem.mp apart
  rcases Nat.lt_trichotomy place more with less | same | greater
  · exact absurd rightHas (apart place more leftInside rightInside less leftHas)
  · exact same
  · exact absurd leftHas (apart more place rightInside leftInside greater rightHas)

theorem eq_of_pairwise {α : Type} {items : List α} {has : α → Prop} {left right : α}
    (apart : items.Pairwise fun left right => has left → ¬ has right) (inItems : left ∈ items)
    (otherInItems : right ∈ items) (leftHas : has left) (rightHas : has right) : left = right := by
  rcases List.getElem?_of_mem inItems with ⟨place, leftThere⟩
  rcases List.getElem?_of_mem otherInItems with ⟨more, rightThere⟩
  rw [place_eq_of_pairwise apart leftThere rightThere leftHas rightHas, rightThere] at leftThere
  injection leftThere with same
  exact same.symm

/-- From a page one comes to a node or a leaf by taking children, each by its place. -/
inductive Way (pages : List Page) : PageIndex → List Nat → PageIndex → Prop where
  | here {index : PageIndex} {page : Page} {view : View} (fetched : fetch pages index = some page)
      (viewed : page.view = .ok view) (fits : Role.child.Fits view) : Way pages index [] index
  | down {index child target : PageIndex} {page : Page} {node : Node} {children : List PageIndex}
      {place : Nat} {path : List Nat} (fetched : fetch pages index = some page)
      (viewed : page.view = .ok (.node node)) (readable : node.children = .ok children)
      (taken : children[place]? = some child) (further : Way pages child path target) :
      Way pages index (place :: path) target

/-- A way from a node ends there or goes on with one of its children. -/
theorem Way.cases_node {index : PageIndex} {node : Node} {children : List PageIndex}
    (way : Way pages index path target) (fetched : fetch pages index = some node.toPage)
    (readable : node.children = .ok children) :
    path = [] ∧ target = index ∨ ∃ place child rest, path = place :: rest ∧
      children[place]? = some child ∧ Way pages child rest target := by
  cases way with
  | here _ _ _ => exact Or.inl ⟨rfl, rfl⟩
  | @down _ child _ page otherNode others place rest otherFetched viewed otherReadable taken
      further =>
      rw [fetched] at otherFetched
      injection otherFetched with same
      rw [← same, node.view_toPage] at viewed
      injection viewed with same
      injection same with same
      rw [← same, readable] at otherReadable
      injection otherReadable with same
      subst same
      exact Or.inr ⟨place, child, rest, rfl, taken, further⟩

theorem Way.cases_leaf {index : PageIndex} {leaf : Leaf} (way : Way pages index path target)
    (fetched : fetch pages index = some leaf.toPage) : path = [] ∧ target = index := by
  cases way with
  | here _ _ _ => exact ⟨rfl, rfl⟩
  | down otherFetched viewed _ _ _ =>
      rw [fetched] at otherFetched
      injection otherFetched with same
      rw [← same, leaf.view_toPage] at viewed
      injection viewed with same
      contradiction

/-! ## Ways in a branch -/

namespace Grown

theorem mem_of_way (grown : Grown limit pages depth branch)
    (way : Way pages branch.index path target) : target ∈ branch.reached := by
  induction grown generalizing path with
  | leaf fetched proper next_eq => exact List.mem_singleton.mpr (way.cases_leaf fetched).2
  | @node depth index node keys branches fetched proper grown routes ih =>
      rcases way.cases_node fetched proper.holds.children_eq with
        ⟨_, rfl⟩ | ⟨place, child, rest, _, taken, further⟩
      · exact List.mem_cons_self
      · rw [List.getElem?_map, Option.map_eq_some_iff] at taken
        rcases taken with ⟨below, there, rfl⟩
        have member := List.mem_of_getElem? there
        exact List.mem_cons_of_mem _ (List.mem_flatMap_of_mem member (ih below member further))

/-- There is a way to every page that a branch reaches. -/
theorem exists_way (grown : Grown limit pages depth branch) (member : target ∈ branch.reached) :
    ∃ path, Way pages branch.index path target := by
  induction grown with
  | @leaf sheet leaf fetched proper next_eq =>
      rw [List.mem_singleton.mp member]
      exact ⟨[], .here fetched leaf.view_toPage (.leaf proper.holds.entries_eq)⟩
  | @node depth index node keys branches fetched proper grown routes ih =>
      have readable := proper.holds.children_eq
      rcases List.mem_cons.mp member with rfl | below
      · exact ⟨[], .here fetched node.view_toPage (.node readable)⟩
      · rcases List.mem_flatMap.mp below with ⟨branch, inBranches, inBranch⟩
        rcases ih branch inBranches inBranch with ⟨path, way⟩
        rcases List.getElem?_of_mem inBranches with ⟨place, there⟩
        have taken : (branches.map Branch.index)[place]? = some branch.index := by
          rw [List.getElem?_map, there]
          rfl
        exact ⟨place :: path, .down fetched node.view_toPage readable taken way⟩

/-- If a branch reaches no page twice, there is only one way to each. -/
theorem way_eq (grown : Grown limit pages depth branch) (once : branch.reached.Nodup)
    (way : Way pages branch.index path target) (otherWay : Way pages branch.index other target) :
    path = other := by
  induction grown generalizing path other with
  | leaf fetched proper next_eq =>
      rw [(way.cases_leaf fetched).1, (otherWay.cases_leaf fetched).1]
  | @node depth index node keys branches fetched proper grown routes ih =>
      have readable := proper.holds.children_eq
      rcases List.nodup_cons.mp once with ⟨notBelow, onceBelow⟩
      rcases List.pairwise_flatMap.mp onceBelow with ⟨onceEach, apart⟩
      -- A way past the node leads into one of its branches, and the branches share no page.
      have below : ∀ {place : Nat} {child : PageIndex} {rest : List Nat},
          (branches.map Branch.index)[place]? = some child → Way pages child rest target →
          ∃ under : Branch, branches[place]? = some under ∧ under.index = child ∧
            target ∈ under.reached := by
        intro place child rest taken further
        rw [List.getElem?_map, Option.map_eq_some_iff] at taken
        rcases taken with ⟨under, there, rfl⟩
        exact ⟨under, there, rfl, (grown under (List.mem_of_getElem? there)).mem_of_way further⟩
      have notHere : ∀ {place : Nat} {child : PageIndex} {rest : List Nat},
          (branches.map Branch.index)[place]? = some child → Way pages child rest target →
          target ≠ index := by
        rintro place child rest taken further rfl
        rcases below taken further with ⟨under, there, _, inUnder⟩
        exact notBelow (List.mem_flatMap_of_mem (List.mem_of_getElem? there) inUnder)
      rcases way.cases_node fetched readable with
        ⟨rfl, here⟩ | ⟨place, child, rest, rfl, taken, further⟩
      · rcases otherWay.cases_node fetched readable with
          ⟨rfl, _⟩ | ⟨_, _, _, _, otherTaken, otherFurther⟩
        · rfl
        · exact absurd here (notHere otherTaken otherFurther)
      · rcases otherWay.cases_node fetched readable with
          ⟨_, here⟩ | ⟨more, otherChild, otherRest, rfl, otherTaken, otherFurther⟩
        · exact absurd here (notHere taken further)
        · rcases below taken further with ⟨left, leftThere, rfl, inLeft⟩
          rcases below otherTaken otherFurther with ⟨right, rightThere, rfl, inRight⟩
          have noneShared : branches.Pairwise fun left right =>
              target ∈ left.reached → target ∉ right.reached :=
            apart.imp fun different inLeft inRight => different target inLeft target inRight rfl
          obtain rfl := place_eq_of_pairwise noneShared leftThere rightThere inLeft inRight
          rw [leftThere] at rightThere
          injection rightThere with same
          subst same
          have member := List.mem_of_getElem? leftThere
          rw [ih left member (onceEach left member) further otherFurther]

end Grown

namespace Keeps

variable {tree : Tree} {outline : Outline} {contents : Contents}

/-- Ways lead from the root to the nodes and to the leaves. -/
theorem way_iff (keeps : Keeps limit pages tree outline contents) :
    (∃ path, Way pages tree.anchor.root path target) ↔
      Belongs pages tree.anchor.sentinel outline .child target := by
  rcases keeps.exists_branch with ⟨branch, grown, index_eq, _, reached⟩
  rw [← index_eq]
  constructor
  · rintro ⟨path, way⟩
    rcases List.mem_append.mp (reached.mem_iff.mp (grown.mem_of_way way)) with isNode | isLeaf
    · rcases List.mem_map.mp isNode with ⟨group, member, rfl⟩
      exact .node member
    · rcases List.mem_map.mp isLeaf with ⟨sheet, member, rfl⟩
      exact .leaf member
  · intro belongs
    apply grown.exists_way
    rw [reached.mem_iff]
    cases belongs with
    | node member => exact List.mem_append_left _ (List.mem_map_of_mem member)
    | leaf member => exact List.mem_append_right _ (List.mem_map_of_mem member)

theorem way_eq (keeps : Keeps limit pages tree outline contents)
    (way : Way pages tree.anchor.root path target)
    (otherWay : Way pages tree.anchor.root other target) : path = other := by
  rcases keeps.exists_branch with ⟨branch, grown, index_eq, _, reached⟩
  rw [← index_eq] at way otherWay
  exact grown.way_eq (reached.nodup_iff.mpr keeps.nodup_indices) way otherWay

end Keeps

end PagedMap
