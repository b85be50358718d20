import PagedMap.Page.Node
import PagedMap.Proofs.Page.Cuts
import PagedMap.Proofs.Page.RegionUpdates

/-!
# Nodes hold keys between children

A node holds a list of keys and a list of children, one child more than keys, if its region holds
the keys, its children lie packed at the back of its body, and its header counts both. Reading gives
back keys and children, and routing finds the child by the place where a key cuts the keys.
-/

namespace PagedMap.Node

/-- The bytes that a key takes together with the child to its right. -/
def routeSize (key : Bytes) : Nat := key.length + childSize

/-- The bytes of the body that keys take up with their children. -/
def load (keys : List Bytes) : Nat :=
  tableSize keys.length + weigh routeSize keys + childSize

/-- The bytes of children as they are seen from the back. -/
def linkBytes (children : List PageIndex) : Bytes :=
  children.flatMap fun child => (Bytes.ofIndex child).reverse

/-- The children lie packed at the back of a body. -/
structure Linked (body : Buffer nodeCapacity) (children : List PageIndex) : Prop where
  packed : (body.seen .back).take (childSize * children.length) = linkBytes children
  fits : childSize * children.length ≤ nodeCapacity

/-- A node holds keys between children. -/
structure Holds (node : Node) (keys : List Bytes) (children : List PageIndex) : Prop where
  count_eq : node.count = keys.length
  arity : children.length = keys.length + 1
  keyed : Region.Holds .front node.body keys
  linked : Linked node.body children
  head_eq : node.counters.head.toNat = Region.footprint keys
  tail_eq : node.counters.tail.toNat = childSize * children.length
  fits : load keys ≤ nodeCapacity

theorem capacity_lt : nodeCapacity < slotLimit := by decide

theorem weigh_routeSize (keys : List Bytes) :
    weigh routeSize keys = keys.flatten.length + childSize * keys.length := by
  induction keys with
  | nil => rfl
  | cons key rest ih =>
      simp only [weigh_cons, List.flatten_cons, List.length_append, List.length_cons, ih,
        routeSize, childSize]
      omega

theorem footprint_add_children (keys : List Bytes) :
    Region.footprint keys + childSize * (keys.length + 1) = load keys := by
  rw [load, weigh_routeSize, Region.footprint, Nat.mul_succ]
  omega

theorem load_mono {fewer more : List Bytes} (sublist : fewer.Sublist more) :
    load fewer ≤ load more := by
  have lengths := tableSize_mono sublist.length_le
  have weights := weigh_le_of_sublist routeSize sublist
  simp only [load]
  omega

@[simp]
theorem length_linkBytes (children : List PageIndex) :
    (linkBytes children).length = childSize * children.length := by
  induction children with
  | nil => rfl
  | cons child rest ih =>
      simp only [linkBytes, List.flatMap_cons, List.length_append, List.length_reverse,
        Bytes.length_ofIndex, List.length_cons] at ih ⊢
      rw [ih, childSize]
      omega

theorem linkBytes_append (front back : List PageIndex) :
    linkBytes (front ++ back) = linkBytes front ++ linkBytes back := by
  simp [linkBytes]

theorem linkBytes_singleton (child : PageIndex) :
    linkBytes [child] = (Bytes.ofIndex child).reverse := by
  simp [linkBytes]

namespace Linked

variable {body : Buffer nodeCapacity} {front middle back : List PageIndex} {child : PageIndex}

theorem childBytes_eq (linked : Linked body (front ++ middle ++ back)) (stop : Nat)
    (stop_eq : stop = front.length + middle.length) :
    childBytes body front.length stop = .ok (linkBytes middle).reverse := by
  have fits := linked.fits
  simp only [List.length_append, Nat.mul_add] at fits
  have length_eq : childSize * (stop - front.length) = childSize * middle.length := by
    rw [stop_eq, Nat.add_sub_cancel_left]
  rw [childBytes, length_eq, Buffer.read_eq_ok (by omega),
    Region.take_drop_of_prefix linked.packed _ _
      (by simp only [List.length_append, Nat.mul_add]; omega),
    List.append_assoc, linkBytes_append, List.drop_left' (by simp), linkBytes_append,
    List.take_left' (by simp)]
  rfl

theorem take_eq (linked : Linked body (front ++ back)) :
    (body.seen .back).take (childSize * front.length) = linkBytes front := by
  have within := Region.take_drop_of_prefix linked.packed 0 (childSize * front.length)
    (by simp only [List.length_append, Nat.mul_add]; omega)
  rwa [List.drop_zero, List.drop_zero, linkBytes_append, List.take_left' (by simp)] at within

theorem of_agreeBeyond {children : List PageIndex} (linked : Linked body children)
    {other : Buffer nodeCapacity} {distance : Nat}
    (agree : Buffer.AgreeBeyond .front distance body other)
    (apart : distance + childSize * children.length ≤ nodeCapacity) : Linked other children :=
  ⟨(agree.take_opposite apart).trans linked.packed, linked.fits⟩

end Linked

theorem exists_writeChildBytes_eq_ok (body : Buffer nodeCapacity) (first : Nat)
    (children : List PageIndex)
    (fits : childSize * first + childSize * children.length ≤ nodeCapacity) :
    ∃ written, writeChildBytes body first (linkBytes children).reverse = .ok written ∧
      written.seen .back = (body.seen .back).take (childSize * first) ++ linkBytes children ++
        (body.seen .back).drop (childSize * first + childSize * children.length) := by
  rcases body.exists_write_eq_ok .back (childSize * first) (linkBytes children).reverse
    (by rw [List.length_reverse, length_linkBytes]; exact fits) with ⟨written, writes, seen_eq⟩
  refine ⟨written, writes, ?_⟩
  rw [seen_eq]
  simp [Side.arrange]

/-- Writing children changes nothing farther from the end of the page than the last of them. -/
theorem agreeBeyond_of_children {before after : Buffer nodeCapacity} {first distance : Nat}
    {children : List PageIndex}
    (seen_eq : after.seen .back = (before.seen .back).take (childSize * first) ++
      linkBytes children ++
        (before.seen .back).drop (childSize * first + childSize * children.length))
    (reaches : childSize * first + childSize * children.length ≤ distance)
    (fits : distance ≤ nodeCapacity) : Buffer.AgreeBeyond .back distance before after := by
  have length_eq := length_linkBytes children
  rw [← length_eq] at reaches
  have arranged : Side.back.arrange (linkBytes children).reverse = linkBytes children := by
    simp [Side.arrange]
  rw [← arranged, ← length_eq, ← List.length_reverse] at seen_eq
  apply (Buffer.agreeBeyond_of_seen_eq _ seen_eq).mono
  · rwa [List.length_reverse]
  · rw [List.length_reverse]
    omega

namespace Holds

variable {node : Node} {keys front back : List Bytes} {children : List PageIndex} {key : Bytes}

theorem used_eq (holds : node.Holds keys children) : node.used = load keys := by
  rw [used, Counters.used, holds.head_eq, holds.tail_eq, holds.arity, footprint_add_children]

theorem length_lt (holds : node.Holds keys children) : keys.length < 256 := by
  rw [← holds.count_eq]
  exact node.counters.count.toNat_lt

theorem key_eq (holds : node.Holds (front ++ key :: back) children) :
    node.key front.length = .ok key := by
  have read := holds.keyed.item_eq capacity_lt
  rw [Node.key, holds.count_eq, bind_of_eq_ok (Fault.require_of (by simp) _)]
  exact read

theorem key_getElem (holds : node.Holds keys children) {index : Nat}
    (inside : index < keys.length) : node.key index = .ok keys[index] := by
  rcases exists_split_of_lt inside with ⟨front, back, keys_eq, rfl⟩
  have split := holds
  rw [keys_eq] at split
  exact split.key_eq

/-- The child between two keys is read by the index of the key to its left. -/
theorem child_eq {left right : List PageIndex} {child : PageIndex}
    (holds : node.Holds keys (left ++ child :: right)) {index : Int}
    (index_eq : index = (left.length : Int) - 1) : node.child index = .ok child := by
  have arity := holds.arity
  simp only [List.length_append, List.length_cons] at arity
  have place : (index + 1).toNat = left.length := by omega
  have linked : Linked node.body (left ++ [child] ++ right) := by
    simpa using holds.linked
  have bytes := linked.childBytes_eq (left.length + 1) (by simp)
  rw [Node.child, bind_of_eq_ok (Fault.require_of (by
      rw [Bool.and_eq_true]
      exact ⟨decide_eq_true (by omega), decide_eq_true (by rw [holds.count_eq]; omega)⟩) _)]
  simp only [place]
  rw [bind_of_eq_ok bytes, linkBytes_singleton, List.reverse_reverse]
  exact congrArg Except.ok (Bytes.toIndex_ofIndex child)

theorem keys_eq (holds : node.Holds keys children) : node.keys = .ok keys := by
  apply mapM_eq_ok (by simp [holds.count_eq])
  intro index inside _
  rw [List.length_range, holds.count_eq] at inside
  rw [List.getElem_range, holds.key_getElem inside]

theorem children_eq (holds : node.Holds keys children) : node.children = .ok children := by
  apply mapM_eq_ok (by simp [holds.count_eq, holds.arity])
  intro index inside _
  rw [List.length_range, holds.count_eq, ← holds.arity] at inside
  rcases exists_split_of_lt inside with ⟨left, right, children_eq, rfl⟩
  have split := holds
  rw [children_eq] at split
  rw [List.getElem_range]
  exact split.child_eq rfl

/-- A search goes to the child to the right of the last key that does not come after its key. -/
theorem route_eq (holds : node.Holds (front ++ back) children) (cut : CutBy id key front back) :
    node.route key = .ok ((front.length : Int) - 1) := by
  have below : search node.count (fun index => return (← node.key index) ≤ key) =
      .ok front.length := by
    rw [holds.count_eq]
    apply cut.search_eq
    intro index inside
    rw [bind_of_eq_ok (holds.key_getElem inside)]
    rfl
  rw [route, bind_of_eq_ok below]
  rfl

end Holds

end PagedMap.Node
