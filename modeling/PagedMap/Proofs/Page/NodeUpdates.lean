import PagedMap.Proofs.Page.Nodes

/-!
# Updates of nodes

What inserting, removing and moving keys with their children does to the lists that nodes hold,
which of these changes a node refuses, and where half of the bytes of a node lie.
-/

namespace PagedMap.Node

variable {node source target : Node} {keys front middle back : List Bytes}
  {children left between right : List PageIndex}
  {key : Bytes} {child : PageIndex}

theorem single_holds (leftmost : PageIndex) : (single leftmost).Holds [] [leftmost] where
  count_eq := rfl
  arity := rfl
  keyed := ⟨rfl, rfl, by decide⟩
  linked := by
    refine ⟨?_, Nat.le_trans (Nat.le_refl childSize) (by decide)⟩
    have ended : (Buffer.zero nodeCapacity).bytes.drop
        (nodeCapacity - childSize + (Bytes.ofIndex leftmost).length) = [] := by
      apply List.drop_eq_nil_of_le
      rw [(Buffer.zero nodeCapacity).length_bytes, Bytes.length_ofIndex]
      decide
    simp only [Buffer.seen, Side.arrange, single, Buffer.overwrite, ended, List.append_nil,
      List.reverse_append]
    rw [linkBytes_singleton, List.take_left' (by simp [childSize])]
  head_eq := rfl
  tail_eq := rfl
  fits := by decide

/-- Counting the items of a changed body again makes a node of it, unless there are more keys than a
counter can hold. -/
theorem recount_yieldsWhere {body : Buffer nodeCapacity} (counters : Counters)
    (stale : Buffer nodeCapacity) (keyed : Region.Holds .front body keys)
    (linked : Linked body children) (arity : children.length = keys.length + 1)
    (fits : load keys ≤ nodeCapacity) :
    YieldsWhere (keys.length < 256) (recount ⟨counters, stale⟩ keys.length body) fun changed =>
      changed.Holds keys children := by
  have together := footprint_add_children keys
  have small := capacity_lt
  simp only [slotLimit] at small
  rw [recount, bind_of_eq_ok (keyed.used_eq capacity_lt), Counters.settle]
  by_cases few : keys.length < 256
  · rw [if_pos few]
    refine YieldsWhere.of_yields few (Yields.ok ⟨?_, arity, keyed, linked, ?_, ?_, fits⟩)
    · simp only [count, UInt8.toNat_ofNat']
      omega
    · simp only [UInt16.toNat_ofNat']
      omega
    · simp only [UInt16.toNat_ofNat', arity, Nat.mul_comm (keys.length + 1)]
      omega
  · rw [if_neg few]
    exact YieldsWhere.of_error few rfl

/-- Children are moved apart, and others are written between them. -/
theorem insertChildren_yields {body : Buffer nodeCapacity} {count : Nat}
    (between : List PageIndex)
    (linked : Linked body (left ++ right)) (positive : 0 < left.length)
    (counted : (left ++ right).length = count + 1)
    (fits : childSize * (left ++ between ++ right).length ≤ nodeCapacity) :
    Yields
      (openChildren body count (left.length - 1) between.length >>= fun opened =>
        writeChildBytes opened left.length (linkBytes between).reverse)
      fun written => Linked written (left ++ between ++ right) ∧
        Buffer.AgreeBeyond .back (childSize * (left ++ between ++ right).length) body written := by
  have bounded := fits
  simp only [List.length_append, Nat.mul_add] at bounded counted
  have place : left.length - 1 + 1 = left.length := by omega
  have later : Linked body (left ++ right ++ []) := by rwa [List.append_nil]
  -- Two writes: the children to the right move away, and the new ones go into the gap.
  rcases exists_writeChildBytes_eq_ok body (left.length + between.length) right
    (by rw [Nat.mul_add]; omega) with ⟨opened, opens, opened_eq⟩
  rcases exists_writeChildBytes_eq_ok opened left.length between (by omega) with
    ⟨written, writes, written_eq⟩
  have openAgree : Buffer.AgreeBeyond .back (childSize * (left ++ between ++ right).length)
      body opened := by
    apply agreeBeyond_of_children opened_eq _ fits
    simp only [List.length_append, Nat.mul_add]
    omega
  have writeAgree : Buffer.AgreeBeyond .back (childSize * (left ++ between ++ right).length)
      opened written := by
    apply agreeBeyond_of_children written_eq _ fits
    simp only [List.length_append, Nat.mul_add]
    omega
  rw [openChildren, place, bind_of_eq_ok (later.childBytes_eq _ (by omega)), opens,
    bind_of_eq_ok rfl]
  refine ⟨written, writes, ⟨?_, fits⟩, Buffer.AgreeBeyond.trans openAgree writeAgree⟩
  have near : (opened.seen .back).take (childSize * left.length) = linkBytes left := by
    rw [← linked.take_eq, opened_eq, List.append_assoc, List.take_append_of_le_length,
      List.take_take, Nat.min_eq_left (by rw [Nat.mul_add]; omega)]
    simp only [List.length_take, Buffer.length_seen, Nat.mul_add]
    omega
  have far : (opened.seen .back).drop (childSize * left.length + childSize * between.length) =
      linkBytes right ++ (body.seen .back).drop
        (childSize * (left.length + between.length) + childSize * right.length) := by
    rw [opened_eq, List.append_assoc, List.drop_left']
    simp only [List.length_take, Buffer.length_seen, Nat.mul_add]
    omega
  rw [written_eq, near, far, linkBytes_append, linkBytes_append, ← List.append_assoc,
    List.take_left']
  simp only [List.length_append, length_linkBytes, Nat.mul_add]

/-- The check before a move of keys is exact: keys put between others are too much just if all of
them together are. -/
theorem exceeds_moved {before behind : List Bytes}
    (fitsMiddle : load middle ≤ nodeCapacity) (fewMiddle : middle.length < 256)
    (fits : load (before ++ behind) ≤ nodeCapacity) (few : (before ++ behind).length < 256) :
    Word.exceeds (load (before ++ behind) + (Region.pack .front middle).length +
        middle.length * childSize)
      ((tableSize ((before ++ behind).length + middle.length) : Int) -
        tableSize (before ++ behind).length) nodeCapacity =
      .ok (decide (nodeCapacity < load (before ++ middle ++ behind))) := by
  have afterMove : (before ++ middle ++ behind).length =
      (before ++ behind).length + middle.length := by
    simp only [List.length_append]
    omega
  have loadAfter : load (before ++ middle ++ behind) =
      tableSize ((before ++ behind).length + middle.length) +
        (weigh routeSize (before ++ behind) + weigh routeSize middle) + childSize := by
    rw [load, afterMove]
    simp only [weigh_append]
    omega
  have sizes := weigh_routeSize middle
  have table := tableSize_le ((before ++ behind).length + middle.length)
  have cap := capacity_lt
  simp only [slotLimit, slotSize, slotBatch] at cap table
  rw [loadAfter, Region.length_pack, Nat.mul_comm middle.length]
  simp only [load] at fits fitsMiddle ⊢
  rw [exceeds_eq (by simp only [Word.signedLimit]; omega) (by simp only [Word.signedLimit]; omega)
    (by simp only [Word.signedLimit]; omega)]
  apply congrArg Except.ok
  apply decide_eq_decide.mpr
  omega

namespace Holds

/-- A child is replaced in place, and the keys are left alone. -/
theorem setChild_yields {old : PageIndex} (holds : node.Holds keys (left ++ old :: right))
    {index : Int} (index_eq : index = (left.length : Int) - 1) :
    Yields (node.setChild index child) fun changed =>
      changed.Holds keys (left ++ child :: right) := by
  have place : (index + 1).toNat = left.length := by omega
  have arity := holds.arity
  have fits := holds.fits
  have together := footprint_add_children keys
  have sameLength : (left ++ child :: right).length = (left ++ old :: right).length := by simp
  have childrenFit := holds.linked.fits
  simp only [List.length_append, List.length_cons] at arity childrenFit
  rcases exists_writeChildBytes_eq_ok node.body left.length [child]
    (by simp only [List.length_singleton, childSize] at *; omega) with
    ⟨body, writes, body_eq⟩
  rw [linkBytes_singleton, List.reverse_reverse] at writes
  rw [setChild, bind_of_eq_ok (Fault.require_of (by simp only [decide_eq_true_eq]; omega) _),
    place, bind_of_eq_ok writes]
  have agree : Buffer.AgreeBeyond .back (childSize * (left ++ old :: right).length)
      node.body body := by
    apply agreeBeyond_of_children body_eq _ holds.linked.fits
    simp only [List.length_append, List.length_cons, List.length_nil, childSize]
    omega
  -- The keys lie at the front, out of reach of the children.
  have keyed : Region.Holds .front body keys := by
    apply Region.Holds.of_agreeBeyond .back holds.keyed agree
    rw [holds.arity]
    omega
  have near := holds.linked.take_eq
  have far : (node.body.seen .back).drop (childSize * left.length + childSize * [child].length) =
      linkBytes right ++
        (node.body.seen .back).drop (childSize * (left ++ old :: right).length) := by
    have whole := List.take_append_drop (childSize * (left ++ old :: right).length)
      (node.body.seen .back)
    rw [holds.linked.packed] at whole
    have cells : linkBytes (left ++ old :: right) =
        linkBytes (left ++ [old]) ++ linkBytes right := by
      rw [← linkBytes_append]
      simp
    rw [cells, List.append_assoc] at whole
    rw [← whole, List.drop_left']
    · rw [whole]
    · simp [Nat.mul_add]
  have linked : Linked body (left ++ child :: right) := by
    refine ⟨?_, by rw [sameLength]; exact holds.linked.fits⟩
    have cells : linkBytes (left ++ child :: right) =
        linkBytes left ++ linkBytes [child] ++ linkBytes right := by
      rw [← linkBytes_append, ← linkBytes_append]
      simp
    rw [body_eq, near, far, ← List.append_assoc, ← cells, List.take_left' (length_linkBytes _)]
  exact Yields.pure ⟨holds.count_eq, by rw [sameLength]; exact holds.arity, keyed, linked,
    holds.head_eq, by rw [sameLength]; exact holds.tail_eq, fits⟩

/-- Whether a further key would exceed the capacity, for all sizes that are signed words once they
are added up. -/
theorem overflowsWith_size (holds : node.Holds keys children) {keySize : Nat}
    (small : tableSize (keys.length + 1) + (weigh routeSize keys + keySize) + 2 * childSize <
      Word.signedLimit) :
    node.overflowsWith keySize = .ok (decide (nodeCapacity <
      tableSize (keys.length + 1) + (weigh routeSize keys + keySize) + 2 * childSize)) := by
  have few := holds.length_lt
  have grows := tableSize_mono (Nat.le_add_right keys.length 1)
  have grown : tableGrowth keys.length 1 =
      .ok ((tableSize (keys.length + 1) : Int) - tableSize keys.length) :=
    tableGrowth_eq 1 (by omega)
  simp only [Word.signedLimit] at small
  rw [overflowsWith, holds.count_eq, bind_of_eq_ok grown, holds.used_eq,
    bind_of_eq_ok (Word.add_eq_ok (by simp only [load, Word.limit]; omega)),
    bind_of_eq_ok (Word.add_eq_ok (by simp only [load, Word.limit]; omega)),
    exceeds_eq (by simp only [load, Word.signedLimit]; omega)
      (by simp only [load, Word.signedLimit]; omega) (by simp only [load, Word.signedLimit]; omega)]
  apply congrArg Except.ok
  apply decide_eq_decide.mpr
  simp only [load]
  omega

theorem overflowsWith_eq (holds : node.Holds (front ++ back) children) (key : Bytes)
    (small : key.length < 0x1000000000000000) :
    node.overflowsWith key.length = .ok (decide (nodeCapacity < load (front ++ key :: back))) := by
  have load_eq : load (front ++ key :: back) = tableSize ((front ++ back).length + 1) +
      (weigh routeSize (front ++ back) + key.length) + 2 * childSize := by
    simp only [load, weigh_append, weigh_cons, routeSize, List.length_append, List.length_cons]
    rw [Nat.add_assoc front.length]
    omega
  have fits := holds.fits
  have few := holds.length_lt
  have table := tableSize_le ((front ++ back).length + 1)
  have cap := capacity_lt
  simp only [load, slotLimit, slotSize, slotBatch] at fits cap table
  rw [holds.overflowsWith_size (by simp only [Word.signedLimit]; omega), load_eq]

/-- A key with a child is inserted if both have room and the header can count them; the child lies
to the right of the key. -/
theorem insert_yieldsWhere (holds : node.Holds (front ++ back) (left ++ right))
    (aligned : left.length = front.length + 1) (key : Bytes) (child : PageIndex) :
    YieldsWhere
      (load (front ++ key :: back) ≤ nodeCapacity ∧ (front ++ key :: back).length < 256)
      (node.insert front.length key child) fun changed =>
        changed.Holds (front ++ key :: back) (left ++ child :: right) := by
  have longer : (front ++ key :: back).length = (front ++ back).length + 1 := by
    simp only [List.length_append, List.length_cons]
    omega
  have arity := holds.arity
  have arityAfter : (left ++ [child] ++ right).length = (front ++ key :: back).length + 1 := by
    simp only [List.length_append, List.length_cons, List.length_nil] at arity ⊢
    omega
  have togetherAfter := footprint_add_children (front ++ key :: back)
  by_cases small : key.length < 0x1000000000000000
  · rw [Node.insert, holds.count_eq, bind_of_eq_ok (Fault.require_of (by simp) _),
      bind_of_eq_ok (holds.overflowsWith_eq key small)]
    apply YieldsWhere.require (by simp)
    intro fits
    have insertKey := holds.keyed.insert_yields [key] capacity_lt (by simp; omega)
    simp only [Region.pack_singleton, Region.endsFrom, Nat.zero_add, List.append_assoc,
      List.singleton_append] at insertKey
    apply YieldsWhere.bind insertKey
    rintro keyed ⟨keyedKeys, keyedAgree⟩
    -- While one side gets its item, the other one must stay as it is.
    have keyedLinked : Linked keyed (left ++ right) := by
      apply holds.linked.of_agreeBeyond keyedAgree
      rw [arity]
      simp only [childSize] at togetherAfter ⊢
      omega
    have insertChild := insertChildren_yields [child] keyedLinked (by omega) arity
      (by rw [arityAfter]; omega)
    rw [aligned, Nat.add_sub_cancel, linkBytes_singleton, List.reverse_reverse] at insertChild
    rcases insertChild with ⟨linked, links, linkedChildren, linkedAgree⟩
    rw [← bind_assoc, bind_of_eq_ok (by exact links)]
    have linkedKeys : Region.Holds .front linked (front ++ key :: back) := by
      apply Region.Holds.of_agreeBeyond .back keyedKeys linkedAgree
      rw [arityAfter]
      omega
    rw [← longer]
    have both := recount_yieldsWhere node.counters node.body linkedKeys linkedChildren arityAfter
      fits
    simpa using both
  · -- The sum of such sizes may pass for a small one, but the key itself has no room.
    have cap := capacity_lt
    have inside : key.length ≤ load (front ++ key :: back) := by
      simp only [load, weigh_append, weigh_cons, routeSize]
      omega
    simp only [slotLimit] at cap
    apply YieldsWhere.of_only
    · rintro ⟨fits, _⟩
      omega
    · intro changed inserts
      simp only [Node.insert, bind_eq_ok_iff] at inserts
      rcases inserts with ⟨_, _, _, _, _, _, keyed, insertsKey, _⟩
      have keyFits := Region.length_le_of_insert insertsKey
      omega

theorem insert_yields (holds : node.Holds (front ++ back) (left ++ right))
    (aligned : left.length = front.length + 1) (few : (front ++ key :: back).length < 256)
    (fits : load (front ++ key :: back) ≤ nodeCapacity) :
    Yields (node.insert front.length key child) fun changed =>
      changed.Holds (front ++ key :: back) (left ++ child :: right) :=
  (holds.insert_yieldsWhere aligned key child).yields ⟨fits, few⟩

/-- Removing keys removes the child to the right of each, and never the leftmost one. -/
theorem remove_yields (holds : node.Holds (front ++ middle ++ back) (left ++ between ++ right))
    (aligned : left.length = front.length + 1) (sameLength : between.length = middle.length) :
    Yields (node.remove front.length (front ++ middle).length) fun changed =>
      changed.Holds (front ++ back) (left ++ right) := by
  rw [remove, holds.count_eq, bind_of_eq_ok (Fault.require_of (by simp) _)]
  by_cases none : middle = []
  · subst none
    have noneBetween : between = [] := List.eq_nil_of_length_eq_zero (by simpa using sameLength)
    subst noneBetween
    rw [if_pos (by simp)]
    exact Yields.pure (by simpa using holds)
  have some : 0 < middle.length := List.length_pos_iff.mpr none
  have arity := holds.arity
  have together := footprint_add_children (front ++ middle ++ back)
  have fits := holds.fits
  have arityAfter : (left ++ right).length = (front ++ back).length + 1 := by
    simp only [List.length_append] at arity ⊢
    omega
  have fewer : (front ++ middle ++ back).length - ((front ++ middle).length - front.length) =
      (front ++ back).length := by
    simp only [List.length_append]
    omega
  have lighter : load (front ++ back) ≤ load (front ++ middle ++ back) := load_mono (by simp)
  have shorter : (front ++ back).length ≤ (front ++ middle ++ back).length := by
    simp only [List.length_append]
    omega
  rw [if_neg (by simp; omega)]
  apply Yields.bind (holds.keyed.remove_yields capacity_lt)
  rintro unkeyed ⟨unkeyedKeys, unkeyedAgree⟩
  have unkeyedLinked : Linked unkeyed (left ++ between ++ right) := by
    apply holds.linked.of_agreeBeyond unkeyedAgree
    rw [arity]
    omega
  -- The children to the right close the gap. What they leave behind is out of use.
  have fromRight : Linked unkeyed ((left ++ between) ++ right ++ []) := by
    rwa [List.append_nil]
  have rightBytes := fromRight.childBytes_eq ((front ++ middle ++ back).length + 1)
    (by rw [← List.length_append, ← arity])
  have place : (left ++ between).length = (front ++ middle).length + 1 := by
    simp only [List.length_append]
    omega
  rw [place] at rightBytes
  have rightFits : childSize * left.length + childSize * right.length ≤ nodeCapacity := by
    rw [← Nat.mul_add, ← List.length_append, arityAfter]
    have := footprint_add_children (front ++ back)
    omega
  rcases exists_writeChildBytes_eq_ok unkeyed left.length right rightFits with
    ⟨closed, closes, closed_eq⟩
  rw [aligned] at closes
  rw [bind_of_eq_ok rightBytes, bind_of_eq_ok closes, fewer]
  have closedAgree : Buffer.AgreeBeyond .back (childSize * (left ++ right).length)
      unkeyed closed := by
    apply agreeBeyond_of_children closed_eq
    · simp only [List.length_append, Nat.mul_add]
      omega
    · rwa [List.length_append, Nat.mul_add]
  have closedKeys : Region.Holds .front closed (front ++ back) := by
    apply Region.Holds.of_agreeBeyond .back unkeyedKeys closedAgree
    have := footprint_add_children (front ++ back)
    rw [arityAfter]
    omega
  have near : (unkeyed.seen .back).take (childSize * left.length) = linkBytes left := by
    have start : Linked unkeyed (left ++ (between ++ right)) := by
      rwa [← List.append_assoc]
    exact start.take_eq
  have closedLinked : Linked closed (left ++ right) := by
    refine ⟨?_, by rw [List.length_append, Nat.mul_add]; exact rightFits⟩
    rw [closed_eq, near, ← linkBytes_append, List.take_left' (by simp)]
  exact (recount_yieldsWhere node.counters node.body closedKeys closedLinked arityAfter
    (by omega)).yields (Nat.lt_of_le_of_lt shorter holds.length_lt)

/-- Keys are moved with their children where they have room and the header can count them; of no
keys that is always so. -/
theorem move_yieldsWhere (holds : source.Holds (front ++ middle ++ back) (left ++ between ++ right))
    (aligned : left.length = front.length + 1) (sameLength : between.length = middle.length)
    (before behind : List Bytes) (targetLeft targetRight : List PageIndex)
    (targetHolds : target.Holds (before ++ behind) (targetLeft ++ targetRight))
    (targetAligned : targetLeft.length = before.length + 1) :
    YieldsWhere
      (load (before ++ middle ++ behind) ≤ nodeCapacity ∧
        (before ++ middle ++ behind).length < 256)
      (source.move target before.length front.length (front ++ middle).length)
      fun (kept, filled) => kept.Holds (front ++ back) (left ++ right) ∧
        filled.Holds (before ++ middle ++ behind) (targetLeft ++ between ++ targetRight) := by
  rw [move, holds.count_eq, targetHolds.count_eq,
    bind_of_eq_ok (Fault.require_of (by simp) _)]
  by_cases none : middle = []
  · subst none
    have noneBetween : between = [] := List.eq_nil_of_length_eq_zero (by simpa using sameLength)
    subst noneBetween
    rw [if_pos (by simp)]
    simp only [List.append_nil] at holds ⊢
    exact YieldsWhere.of_yields ⟨targetHolds.fits, targetHolds.length_lt⟩
      (Yields.pure ⟨holds, targetHolds⟩)
  have some : 0 < middle.length := List.length_pos_iff.mpr none
  have moved : (front ++ middle).length - front.length = middle.length := by simp
  have afterMove : (before ++ behind).length + middle.length =
      (before ++ middle ++ behind).length := by
    simp only [List.length_append]
    omega
  have arity := targetHolds.arity
  have arityAfter : (targetLeft ++ between ++ targetRight).length =
      (before ++ middle ++ behind).length + 1 := by
    simp only [List.length_append] at arity ⊢
    omega
  have togetherAfter := footprint_add_children (before ++ middle ++ behind)
  have fewSource := holds.length_lt
  have fewTarget := targetHolds.length_lt
  have fitsMiddle : load middle ≤ nodeCapacity :=
    Nat.le_trans (load_mono (by simp)) holds.fits
  have fewMiddle : middle.length < 256 := by
    simp only [List.length_append] at fewSource
    omega
  rw [if_neg (by simp; omega), bind_of_eq_ok (Fault.require_of (by simp) _)]
  simp only [moved]
  rw [bind_of_eq_ok (holds.keyed.items_eq capacity_lt), bind_of_eq_ok (tableGrowth_eq _ (by omega)),
    targetHolds.used_eq,
    bind_of_eq_ok (exceeds_moved fitsMiddle fewMiddle targetHolds.fits fewTarget)]
  apply YieldsWhere.require (by simp)
  intro fits
  rw [bind_of_eq_ok (holds.keyed.endsWithin_eq capacity_lt)]
  apply YieldsWhere.bind (targetHolds.keyed.insert_yields middle capacity_lt (by omega))
  rintro keyed ⟨keyedKeys, keyedAgree⟩
  have keyedLinked : Linked keyed (targetLeft ++ targetRight) := by
    apply targetHolds.linked.of_agreeBeyond keyedAgree
    rw [arity]
    simp only [childSize, ← afterMove] at togetherAfter ⊢
    omega
  -- The children are read before anything is removed from the source.
  have moving := holds.linked.childBytes_eq ((front ++ middle).length + 1)
    (by simp only [List.length_append]; omega)
  rw [aligned] at moving
  have filling := insertChildren_yields between keyedLinked (by omega) arity
    (by rw [arityAfter]; omega)
  rw [targetAligned, Nat.add_sub_cancel, sameLength] at filling
  rcases filling with ⟨linked, links, linkedChildren, linkedAgree⟩
  have linkedKeys : Region.Holds .front linked (before ++ middle ++ behind) := by
    apply Region.Holds.of_agreeBeyond .back keyedKeys linkedAgree
    rw [arityAfter]
    omega
  rw [bind_of_eq_ok moving, ← bind_assoc, bind_of_eq_ok (by exact links), afterMove,
    ← and_true (_ < 256)]
  -- Only the count in the header of the target can still refuse.
  apply YieldsWhere.bind_both (recount_yieldsWhere target.counters target.body linkedKeys
    linkedChildren arityAfter fits)
  intro _ filled filledHolds
  apply YieldsWhere.of_yields trivial
  apply Yields.bind (holds.remove_yields aligned sameLength)
  intro kept keptHolds
  exact Yields.pure ⟨keptHolds, filledHolds⟩

/-- The midpoint is the first position before which lie half of the bytes of the keys and
children. -/
theorem midpoint_yields (holds : node.Holds keys children) :
    Yields node.midpoint fun half => half ≤ keys.length ∧
      weigh routeSize keys ≤ 2 * weigh routeSize (keys.take half) ∧
      (0 < half → 2 * weigh routeSize (keys.take (half - 1)) < weigh routeSize keys) := by
  have total : keys.flatten.length + keys.length * childSize = weigh routeSize keys := by
    rw [weigh_routeSize, Nat.mul_comm]
  rw [midpoint, holds.count_eq, bind_of_eq_ok (holds.keyed.itemStart_length capacity_lt), total]
  apply halfway_yields
  · intro index inside
    rw [bind_of_eq_ok (holds.key_getElem inside)]
    rfl
  · omega

/-- The midpoint of a node depends on its keys alone. -/
theorem midpoint_eq_of_keys {other : Node} {others : List PageIndex}
    (holds : node.Holds keys children) (otherHolds : other.Holds keys others) :
    node.midpoint = other.midpoint := by
  rcases holds.midpoint_yields with ⟨half, found, _, reached, before⟩
  rcases otherHolds.midpoint_yields with ⟨otherHalf, otherFound, _, otherReached, otherBefore⟩
  have notLess : ∀ {first second : Nat},
      weigh routeSize keys ≤ 2 * weigh routeSize (keys.take first) →
      (0 < second → 2 * weigh routeSize (keys.take (second - 1)) < weigh routeSize keys) →
      ¬first < second := by
    intro first second reachedFirst beforeSecond less
    have := weigh_take_mono routeSize keys (Nat.le_sub_one_of_lt less)
    have := beforeSecond (by omega)
    omega
  have same : half = otherHalf :=
    Nat.le_antisymm (Nat.le_of_not_lt (notLess otherReached before))
      (Nat.le_of_not_lt (notLess reached otherBefore))
  rw [found, otherFound, same]

end Holds

end PagedMap.Node
