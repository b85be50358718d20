import PagedMap.Text.Blank
import PagedMap.Word

/-!
# Configuration of a tree

The one setting of a tree is how many children a node may have. It can be given directly, or as the
text of a named setting that someone looks up, such as an environment variable.
-/

namespace PagedMap

/-- The smallest maximum of children. With fewer, a split could leave a side empty. -/
def minFanout : Nat := 4

/-- The largest maximum of children. A page header counts the keys between them in one byte. -/
def maxFanout : Nat := 256

/-- How a tree grows. -/
structure Config where
  /-- The most children of a node. -/
  fanout : Nat := 256
  minFanout_le : minFanout ≤ fanout := by decide
  le_maxFanout : fanout ≤ maxFanout := by decide
deriving DecidableEq

/-- A setting that has no such value. -/
structure ConfigError where
  /-- The setting. -/
  name : String
  /-- What is wrong with its value. -/
  reason : String
deriving DecidableEq, Repr

def ConfigError.message (error : ConfigError) : String :=
  s!"invalid value for {error.name}: {error.reason}"

namespace Config

/-- The name of the setting when it is given directly. -/
def fanoutName : String := "max_fanout"

/-- The name under which the setting is looked up. -/
def fanoutVariable : String := "PAGETREE_MAX_FANOUT"

def default : Config := {}

instance : Inhabited Config := ⟨default⟩

/-- The configuration with the fanout that a setting gives, if it lies between the bounds. -/
def ofSetting (name : String) (fanout : Nat) : Except ConfigError Config :=
  if bounds : minFanout ≤ fanout ∧ fanout ≤ maxFanout then
    .ok ⟨fanout, bounds.1, bounds.2⟩
  else
    .error ⟨name, s!"{fanout} is outside {minFanout}..={maxFanout}"⟩

/-- The configuration with a fanout that is given directly. -/
def ofFanout (fanout : Nat) : Except ConfigError Config := ofSetting fanoutName fanout

/-- The number written by decimal digits, if there are any. -/
def decimal? (digits : List Char) : Option Nat :=
  if digits ≠ [] ∧ digits.all Char.isDigit then
    some (digits.foldl (fun value digit => value * 10 + (digit.toNat - 48)) 0)
  else
    none

/-- The 64-bit word that a text names: decimal digits, perhaps after a plus sign, perhaps between
blanks. -/
def word? (text : String) : Option Nat :=
  let trimmed := Text.trimBlanks text.toList
  let digits := if trimmed.head? = some '+' then trimmed.drop 1 else trimmed
  (decimal? digits).filter (· < Word.limit)

/-- The configuration that the setting's text asks for. -/
def ofText (text : String) : Except ConfigError Config :=
  match word? text with
  | none => .error ⟨fanoutVariable, s!"'{text}' is not a valid number"⟩
  | some fanout => ofSetting fanoutVariable fanout

/-- The configuration found by looking up the setting; without it, the default. -/
def ofLookup {m : Type → Type} [Monad m] (lookup : String → m (Option String)) :
    m (Except ConfigError Config) := do
  match ← lookup fanoutVariable with
  | none => return .ok default
  | some text => return ofText text

/-- The most keys of a leaf or a node. -/
def maxEntries (config : Config) : Nat := config.fanout - 1

theorem three_le_maxEntries (config : Config) : 3 ≤ config.maxEntries :=
  Nat.le_sub_of_add_le config.minFanout_le

end Config

end PagedMap
