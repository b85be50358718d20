import PagedMap.Text.Hex

/-!
# Faults

A fault is the end of a computation that was asked for something it does not answer: a caller
broke an agreement, a size or an offset left the range it lives in, or a walk over damaged pages
would never end. Faults are not errors: an error reports the state of the world, a fault reports a
request that should not have been made.
-/

namespace PagedMap

/-- An agreement between a page operation and its caller, with the values that broke it. -/
inductive Assertion where
  /-- The number of entries would become negative or too large to be counted. -/
  | countChange (count : Nat) (delta : Int)
  /-- A page header has one byte for the number of entries. -/
  | countTooLarge (count : Nat)
  /-- A page was taken for a leaf. -/
  | notLeaf (kind : UInt8)
  /-- A page was taken for a node. -/
  | notNode (kind : UInt8)
  /-- A page was taken for an overflow page. -/
  | notOverflow (kind : UInt8)
  | keyIndex (index : Nat)
  | valueIndex (index : Nat)
  | childIndex (index : Int)
  /-- An entry was to be inserted past the end. -/
  | insertIndex (index count : Nat)
  /-- The moved entries are not a range of the page's entries. -/
  | moveRange (first stop count : Nat)
  /-- The removed keys are not a range of the node's keys. -/
  | removeRange (first stop count : Nat)
  | entryTooLarge (size : Nat)
  | valueTooLarge (size : Nat)
  | nodeKeyTooLarge (size : Nat)
  | movedEntriesTooLarge
  | movedKeysTooLarge
  /-- The page index 0 ends an overflow chain, so no overflow page may lie there. -/
  | overflowAtZero
deriving DecidableEq, Repr

def Assertion.message : Assertion → String
  | countChange count delta => s!"entry count {count} cannot change by {delta}"
  | countTooLarge count => s!"entry count {count} does not fit the page header"
  | notLeaf kind => s!"page of kind 0x{Text.hexByte kind} is not a leaf"
  | notNode kind => s!"page of kind 0x{Text.hexByte kind} is not a node"
  | notOverflow kind => s!"page of kind 0x{Text.hexByte kind} is not an overflow page"
  | keyIndex index => s!"key index {index} out of range"
  | valueIndex index => s!"value index {index} out of range"
  | childIndex index => s!"child index {index} out of range"
  | insertIndex index count => s!"insert index {index} beyond count {count}"
  | moveRange first stop count => s!"invalid move range {first}..{stop} of {count}"
  | removeRange first stop count => s!"invalid remove range {first}..{stop} of {count}"
  | entryTooLarge size => s!"leaf entry of {size} bytes does not fit"
  | valueTooLarge size => s!"value of {size} bytes does not fit"
  | nodeKeyTooLarge size => s!"node key of {size} bytes does not fit"
  | movedEntriesTooLarge => "moved entries do not fit the destination leaf"
  | movedKeysTooLarge => "moved keys do not fit the destination node"
  | overflowAtZero => "overflow page allocated at index 0"

/-- The reasons why a computation ends without an answer. -/
inductive Fault where
  /-- An agreement with the caller was broken. -/
  | assertion (broken : Assertion)
  /-- A size, an offset or a sum left its range. -/
  | range
  /-- The walk goes round for ever. -/
  | endless
deriving DecidableEq, Repr

/-- Goes on only where an agreement holds. -/
def Fault.require (holds : Bool) (broken : Assertion) : Except Fault Unit :=
  if holds then .ok () else .error (.assertion broken)

/-- Goes on only where a quantity is within its range. -/
def Fault.within (holds : Bool) : Except Fault Unit :=
  if holds then .ok () else .error .range

end PagedMap
