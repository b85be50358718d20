import PagedMap.Pager.Basic
import PagedMap.Proofs.Ending

/-!
# Pagers that keep a record

A pager around another one that writes down every attempt to write pages, and every success in
making durable what was written. From the record one can tell which pages may be lost.
-/

namespace PagedMap

/-- What a pager was made to do to its pages. -/
inductive PagerRecord where
  /-- Pages were to be written, the first at an index or else at the end. -/
  | written (start : Option PageIndex) (pages : List Page)
  /-- All that was written was made durable. -/
  | synced

/-- A pager with a record of what it was made to do, the earliest first. -/
structure Recording (σ : Type) where
  inner : σ
  records : List PagerRecord := []

namespace Recording

open Pager (onInner)

variable {σ α : Type}

def note (record : PagerRecord) : EStateM PagerError (Recording σ) Unit :=
  modify fun pager => { pager with records := pager.records ++ [record] }

instance : Encloses (Recording σ) σ where
  inner := inner
  withInner pager inner := { pager with inner }

instance [Pager σ] : Pager (Recording σ) where
  readPages start amount := onInner (Pager.readPages start amount)
  writePages pages start := do
    note (.written start pages)
    onInner (Pager.writePages pages start)
  sync := do
    onInner Pager.sync
    note .synced
  pageCount := onInner Pager.pageCount

/-- Whatever was written was made durable afterwards. -/
def AllDurable (pager : Recording σ) : Prop :=
  ∀ earlier start pages later, pager.records = earlier ++ .written start pages :: later →
    .synced ∈ later

/-- When the last thing that happened is a sync, nothing written before is left to be lost. -/
theorem allDurable_of_synced {pager : Recording σ} {earlier : List PagerRecord}
    (records_eq : pager.records = earlier ++ [.synced]) : pager.AllDurable := by
  intro before start pages later split
  rw [records_eq] at split
  rcases List.eq_nil_or_concat later with rfl | ⟨between, last, rfl⟩
  · have same := (List.append_inj' split rfl).2
    simp at same
  · have joined : earlier ++ [PagerRecord.synced] =
        (before ++ .written start pages :: between) ++ [last] := by
      simpa using split
    have same := (List.append_inj' joined rfl).2
    injection same with same
    simp [← same]

theorem sync_allDurable [Pager σ] (pager : Recording σ) :
    Ends (Pager.sync pager) (fun _ after => after.AllDurable) (fun _ _ => True) := by
  have synced : Ends (onInner Pager.sync pager) (fun _ _ => True) (fun _ _ => True) := by
    cases onInner Pager.sync pager <;> trivial
  apply Ends.bind synced
  intro _ middle _
  have last : (⟨middle.inner, middle.records ++ [.synced]⟩ : Recording σ).AllDurable :=
    allDurable_of_synced rfl
  exact last

end Recording

end PagedMap
