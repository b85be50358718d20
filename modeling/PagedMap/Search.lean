import PagedMap.Fault

/-!
# Searching positions

Two searches among the positions `0, 1, …, count - 1` of a page. The first finds, by halving, how
long the prefix is on which a test holds, if the test fails on all that follows. The second finds
the first position by which half of a total size has been passed. What they look at may fault, and
then the search does.
-/

namespace PagedMap

/-- The first number in `low, …, high` at which the test fails, where it holds below `low` and
fails from `high` on. -/
def searchBetween (test : Nat → Except Fault Bool) (low high : Nat) : Except Fault Nat :=
  if low < high then do
    let middle := low + (high - low) / 2
    if ← test middle then
      searchBetween test (middle + 1) high
    else
      searchBetween test low middle
  else
    .ok low
termination_by high - low

/-- How many of the numbers below `count` pass the test, if those that pass come first. -/
def search (count : Nat) (test : Nat → Except Fault Bool) : Except Fault Nat :=
  searchBetween test 0 count

/-- The search finds the end of the prefix, whatever a test says outside of the range searched. -/
theorem searchBetween_eq {test : Nat → Except Fault Bool} {low high boundary : Nat}
    (above : low ≤ boundary) (below : boundary ≤ high)
    (answers : ∀ index, low ≤ index → index < high → test index = .ok (decide (index < boundary))) :
    searchBetween test low high = .ok boundary := by
  fun_induction searchBetween test low high with
  | case1 low high nonempty middle ihUp ihDown =>
    have middle_ge : low ≤ middle := by omega
    have middle_lt : middle < high := by omega
    rw [answers middle middle_ge middle_lt]
    by_cases before : middle < boundary
    · simp only [before, decide_true, bind, Except.bind, if_true]
      exact ihUp (by omega) below fun index ge lt => answers index (by omega) lt
    · simp only [before, decide_false, bind, Except.bind, Bool.false_eq_true, if_false]
      exact ihDown above (by omega) fun index ge lt => answers index ge (by omega)
  | case2 low high empty => exact congrArg _ (by omega)

/-- The search finds the number of passing numbers. -/
theorem search_eq {test : Nat → Except Fault Bool} {count boundary : Nat}
    (below : boundary ≤ count)
    (answers : ∀ index < count, test index = .ok (decide (index < boundary))) :
    search count test = .ok boundary :=
  searchBetween_eq (Nat.zero_le _) below fun index _ lt => answers index lt

/-- The first position, from `position` on, before which at least half of `total` lies, where
`passed` lies before `position`; or the end, if there is none among the `remaining` positions. -/
def halfwayFrom (total : Nat) (sizeAt : Nat → Except Fault Nat) (remaining position passed : Nat) :
    Except Fault Nat :=
  match remaining with
  | 0 => .ok position
  | remaining + 1 =>
    if total ≤ 2 * passed then
      .ok position
    else do
      let size ← sizeAt position
      halfwayFrom total sizeAt remaining (position + 1) (passed + size)

/-- The first of `count` positions before which at least half of `total` lies, or `count`. -/
def halfway (total count : Nat) (sizeAt : Nat → Except Fault Nat) : Except Fault Nat :=
  halfwayFrom total sizeAt count 0 0

end PagedMap
