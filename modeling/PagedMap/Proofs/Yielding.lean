import PagedMap.Fault

/-!
# Computations that yield a value

The operations on pages are computations that may fault. On pages that are in order they do not:
they yield a value, and this file says how a property of the value is put together from the
properties that the steps of a computation establish. Where an operation is asked for something that
it does not answer, it faults, and this is read off the steps that every computation with a value
has gone through.
-/

namespace PagedMap

variable {α β : Type}

/-- The computation ends with a value that has a property, and not with a fault. -/
def Yields (outcome : Except Fault α) (property : α → Prop) : Prop :=
  ∃ value, outcome = .ok value ∧ property value

namespace Yields

theorem pure {value : α} {property : α → Prop} (holds : property value) :
    Yields (Pure.pure value) property :=
  ⟨value, rfl, holds⟩

theorem ok {value : α} {property : α → Prop} (holds : property value) :
    Yields (.ok value) property :=
  ⟨value, rfl, holds⟩

theorem bind {first : Except Fault α} {next : α → Except Fault β} {middle : α → Prop}
    {property : β → Prop} (yields : Yields first middle)
    (continues : ∀ value, middle value → Yields (next value) property) :
    Yields (first >>= next) property := by
  rcases yields with ⟨value, rfl, holds⟩
  exact continues value holds

theorem mono {outcome : Except Fault α} {weaker stronger : α → Prop}
    (yields : Yields outcome stronger) (implies : ∀ value, stronger value → weaker value) :
    Yields outcome weaker := by
  rcases yields with ⟨value, ends, holds⟩
  exact ⟨value, ends, implies value holds⟩

end Yields

theorem bind_of_eq_ok {first : Except Fault α} {value : α} (ends : first = .ok value)
    (next : α → Except Fault β) : (first >>= next) = next value := by
  rw [ends]
  rfl

theorem bind_eq_ok_iff {first : Except Fault α} {next : α → Except Fault β} {result : β} :
    (first >>= next) = .ok result ↔ ∃ value, first = .ok value ∧ next value = .ok result := by
  cases first with
  | error fault =>
      constructor
      · intro ends
        cases ends
      · rintro ⟨value, ends, _⟩
        cases ends
  | ok value =>
      constructor
      · exact fun ends => ⟨value, rfl, ends⟩
      · rintro ⟨other, ends, ends'⟩
        cases ends
        exact ends'

/-- A computation for each element succeeds if each of them does. -/
theorem mapM_eq_ok {compute : α → Except Fault β} {inputs : List α} {results : List β}
    (sameLength : inputs.length = results.length)
    (each : ∀ index (inside : index < inputs.length) (given : index < results.length),
      compute inputs[index] = .ok results[index]) :
    inputs.mapM compute = .ok results := by
  induction inputs generalizing results with
  | nil =>
      cases results with
      | nil => rfl
      | cons _ _ => simp at sameLength
  | cons input inputs ih =>
      cases results with
      | nil => simp at sameLength
      | cons result results =>
          have first := each 0 (by simp) (by simp)
          have rest : inputs.mapM compute = .ok results := by
            apply ih (by simpa using sameLength)
            intro index inside given
            have next := each (index + 1) (by simpa using inside) (by simpa using given)
            simpa using next
          simp only [List.getElem_cons_zero] at first
          rw [List.mapM_cons, bind_of_eq_ok first, bind_of_eq_ok rest]
          rfl

theorem Fault.require_of {holds : Bool} (agreed : holds = true) (broken : Assertion) :
    Fault.require holds broken = .ok () :=
  if_pos agreed

theorem Fault.within_of {holds : Bool} (agreed : holds = true) :
    Fault.within holds = .ok () :=
  if_pos agreed

theorem Fault.of_require {holds : Bool} {broken : Assertion} {next : Unit → Except Fault α}
    {value : α} (ends : (Fault.require holds broken >>= next) = .ok value) : holds = true := by
  cases holds with
  | true => rfl
  | false => cases ends

/-- The computation ends with a value that has a property where it is allowed, and with a fault
everywhere else. -/
structure YieldsWhere (allowed : Prop) (outcome : Except Fault α) (property : α → Prop) : Prop where
  yields : allowed → Yields outcome property
  faults : ¬allowed → ∃ fault, outcome = .error fault

namespace YieldsWhere

variable {allowed : Prop} {outcome : Except Fault α} {property : α → Prop}

/-- It is enough that nothing but what is allowed ends with a value. -/
theorem of_only (yields : allowed → Yields outcome property)
    (only : ∀ value, outcome = .ok value → allowed) : YieldsWhere allowed outcome property where
  yields
  faults refused := by
    cases ends : outcome with
    | error fault => exact ⟨fault, rfl⟩
    | ok value => exact absurd (only value ends) refused

theorem allowed_of_ok (yieldsWhere : YieldsWhere allowed outcome property) {value : α}
    (ends : outcome = .ok value) : allowed := by
  apply Classical.byContradiction
  intro refused
  rcases yieldsWhere.faults refused with ⟨fault, fails⟩
  rw [ends] at fails
  cases fails

theorem holds (yieldsWhere : YieldsWhere allowed outcome property) {value : α}
    (ends : outcome = .ok value) : property value := by
  rcases yieldsWhere.yields (yieldsWhere.allowed_of_ok ends) with ⟨other, same, holds⟩
  rw [ends] at same
  cases same
  exact holds

theorem congr {other : Prop} (yieldsWhere : YieldsWhere allowed outcome property)
    (same : other ↔ allowed) : YieldsWhere other outcome property :=
  ⟨fun granted => yieldsWhere.yields (same.mp granted),
    fun refused => yieldsWhere.faults fun granted => refused (same.mpr granted)⟩

theorem of_yields (granted : allowed) (yields : Yields outcome property) :
    YieldsWhere allowed outcome property :=
  ⟨fun _ => yields, fun refused => absurd granted refused⟩

theorem of_error {fault : Fault} (refused : ¬allowed) (fails : outcome = .error fault) :
    YieldsWhere allowed outcome property :=
  ⟨fun granted => absurd granted refused, fun _ => ⟨fault, fails⟩⟩

theorem bind {first : Except Fault β} {next : β → Except Fault α} {middle : β → Prop}
    (yields : Yields first middle)
    (continues : ∀ value, middle value → YieldsWhere allowed (next value) property) :
    YieldsWhere allowed (first >>= next) property := by
  rcases yields with ⟨value, rfl, holds⟩
  exact continues value holds

/-- Where two steps may both refuse, the computation yields a value where both are allowed. -/
theorem bind_both {first : Except Fault β} {next : β → Except Fault α} {middle : β → Prop}
    {later : Prop} (firstWhere : YieldsWhere allowed first middle)
    (continues : allowed → ∀ value, middle value → YieldsWhere later (next value) property) :
    YieldsWhere (allowed ∧ later) (first >>= next) property := by
  by_cases granted : allowed
  · apply (bind (firstWhere.yields granted) (continues granted)).congr
    exact and_iff_right granted
  · rcases firstWhere.faults granted with ⟨fault, fails⟩
    have stops : (first >>= next) = .error fault := by
      rw [fails]
      rfl
    exact of_error (fun both => granted both.1) stops

theorem require {holds : Bool} {broken : Assertion} {rest : Except Fault α} {later : Prop}
    (agreed : holds = true ↔ allowed)
    (continues : allowed → YieldsWhere later rest property) :
    YieldsWhere (allowed ∧ later) (Fault.require holds broken >>= fun _ => rest) property := by
  have passes : YieldsWhere allowed (Fault.require holds broken) fun _ => True := by
    constructor
    · intro granted
      exact ⟨(), Fault.require_of (agreed.mpr granted) broken, trivial⟩
    · intro refused
      rw [Fault.require, if_neg (fun passes => refused (agreed.mp passes))]
      exact ⟨_, rfl⟩
  exact passes.bind_both fun granted _ _ => continues granted

theorem and_of_only {later : Prop} (only : ∀ value, outcome = .ok value → allowed)
    (continues : allowed → YieldsWhere later outcome property) :
    YieldsWhere (allowed ∧ later) outcome property := by
  by_cases granted : allowed
  · exact (continues granted).congr (and_iff_right granted)
  · apply of_only
    · exact fun both => absurd both.1 granted
    · exact fun value ends => absurd (only value ends) granted

theorem map {other : β → Prop} {next : α → β}
    (yieldsWhere : YieldsWhere allowed outcome property)
    (implies : ∀ value, property value → other (next value)) :
    YieldsWhere allowed (outcome >>= fun value => pure (next value)) other where
  yields granted :=
    (yieldsWhere.yields granted).bind fun value holds => Yields.pure (implies value holds)
  faults refused := by
    rcases yieldsWhere.faults refused with ⟨fault, fails⟩
    exact ⟨fault, by rw [fails]; rfl⟩

theorem mono {other : α → Prop} (yieldsWhere : YieldsWhere allowed outcome property)
    (implies : ∀ value, property value → other value) : YieldsWhere allowed outcome other :=
  ⟨fun granted => (yieldsWhere.yields granted).mono implies, yieldsWhere.faults⟩

end YieldsWhere

end PagedMap
