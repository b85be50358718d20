import PagedMap.Pager.Basic

/-!
# Pagers that fail on purpose

A pager around another one that lets calls fail: at a rate for each kind of call, or the one write
after a number of writes. A call that is made to fail does not reach the inner pager. All calls are
counted, and so are those that were made to fail.
-/

namespace PagedMap

/-- How often calls fail, as a decimal fraction: the mantissa with that many decimal places. -/
structure Rate where
  mantissa : Int
  places : Nat
deriving DecidableEq, Repr

namespace Rate

def zero : Rate := ⟨0, 0⟩

/-- The mantissa of the rate one. -/
def scale (rate : Rate) : Nat := Nat.pow 10 rate.places

def isNever (rate : Rate) : Bool := rate.mantissa ≤ 0

def isAlways (rate : Rate) : Bool := rate.scale ≤ rate.mantissa

/-- A rate that is not negative as a decimal number, written with all its places. -/
def text (rate : Rate) : String :=
  if rate.places = 0 then
    toString rate.mantissa
  else
    let fraction := toString (rate.scale + rate.mantissa.toNat % rate.scale)
    toString (rate.mantissa.toNat / rate.scale) ++ "." ++ String.ofList (fraction.toList.drop 1)

end Rate

/-- How often each kind of call fails. -/
structure FaultRates where
  read : Rate
  write : Rate
  sync : Rate
deriving DecidableEq, Repr

namespace FaultRates

def uniform (rate : Rate) : FaultRates := ⟨rate, rate, rate⟩

def none : FaultRates := uniform .zero

/-- One call in a thousand fails. -/
def low : FaultRates := uniform ⟨1, 3⟩

/-- One call in twenty fails. -/
def high : FaultRates := uniform ⟨5, 2⟩

end FaultRates

/-- How many calls there were, and how many of them were made to fail. -/
structure Tally where
  reads : Nat := 0
  writes : Nat := 0
  syncs : Nat := 0
  failedReads : Nat := 0
  failedWrites : Nat := 0
  failedSyncs : Nat := 0
deriving DecidableEq, Repr

/-- A pager whose calls may be made to fail. -/
structure Faulty (σ : Type) where
  inner : σ
  rates : FaultRates := .none
  /-- How many more writes pass before one fails, if one is to. -/
  writesLeft : Option Nat := none
  tally : Tally := {}
  /-- Decides which calls fail at a rate between never and always. -/
  generator : StdGen

namespace Faulty

open Pager (onInner)

variable {σ : Type}

/-- A pager around another one, with no failures yet; the seed decides which calls a rate will
let fail. -/
def wrap (inner : σ) (seed : Nat) : Faulty σ := { inner, generator := mkStdGen seed }

def setRates (pager : Faulty σ) (rates : FaultRates) : Faulty σ := { pager with rates }

/-- The pager that will let a number of writes pass and make the next one fail. -/
def failWriteAfter (pager : Faulty σ) (passing : Nat) : Faulty σ :=
  { pager with writesLeft := some passing }

/-- The pager without any failures to come. -/
def clearFaults (pager : Faulty σ) : Faulty σ :=
  { pager with rates := .none, writesLeft := none }

/-- How many outcomes a draw has. -/
def outcomes : Nat := 0x20000000000000

/-- Whether the next call at a rate fails. Only a rate between never and always needs a draw. -/
def draw (rate : Rate) : EStateM PagerError (Faulty σ) Bool := do
  if rate.isNever then
    return false
  else if rate.isAlways then
    return true
  else
    let pager ← get
    let (drawn, generator) := randNat pager.generator 0 (outcomes - 1)
    set { pager with generator }
    return (drawn : Int) * rate.scale < rate.mantissa * outcomes

/-- Whether the next write fails. An announced failure comes before the rate, and comes once. -/
def drawWrite : EStateM PagerError (Faulty σ) Bool := do
  let pager ← get
  match pager.writesLeft with
  | some 0 =>
    set { pager with writesLeft := none }
    return true
  | some (passing + 1) =>
    set { pager with writesLeft := some passing }
    return false
  | none => draw pager.rates.write

/-- Changes the counts. -/
def count (change : Tally → Tally) : EStateM PagerError (Faulty σ) Unit :=
  modify fun pager => { pager with tally := change pager.tally }

instance : Encloses (Faulty σ) σ where
  inner := inner
  withInner pager inner := { pager with inner }

instance [Pager σ] : Pager (Faulty σ) where
  readPages start amount := do
    count fun tally => { tally with reads := tally.reads + 1 }
    if ← draw (← get).rates.read then
      count fun tally => { tally with failedReads := tally.failedReads + 1 }
      throw (.injectedFault "simulated read error")
    onInner (Pager.readPages start amount)
  writePages pages start := do
    count fun tally => { tally with writes := tally.writes + 1 }
    if ← drawWrite then
      count fun tally => { tally with failedWrites := tally.failedWrites + 1 }
      throw (.injectedFault "simulated write error")
    onInner (Pager.writePages pages start)
  sync := do
    count fun tally => { tally with syncs := tally.syncs + 1 }
    if ← draw (← get).rates.sync then
      count fun tally => { tally with failedSyncs := tally.failedSyncs + 1 }
      throw (.injectedFault "simulated sync error")
    onInner Pager.sync
  pageCount := onInner Pager.pageCount

end Faulty

end PagedMap
