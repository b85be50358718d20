import PagedMap.Proofs.Tree.Calls

/-!
# Encoded values are decoded

Whatever a value and however long the key beside it, encoding the value leaves the pages that were
there alone and appends as many overflow pages as are needed, and no more. As long as these are
left alone in turn, decoding gives back the value.
-/

namespace PagedMap

open PageList (fetch)
open Value (fullTag partialTag partialHeaderSize overflowsFor partsFor)

variable {σ : Type} [Pager σ] [AtomicPager σ]

theorem overflowsFor_eq {keySize size : Nat} (short : keySize ≤ 1015)
    (large : maxInlineEntry < keySize + 1 + size) : overflowsFor keySize size =
      (partialHeaderSize + keySize + size - maxInlineEntry + (overflowCapacity - 1)) /
        overflowCapacity := by
  have excess : partialHeaderSize + size - (maxInlineEntry - keySize) =
      partialHeaderSize + keySize + size - maxInlineEntry := by
    simp only [maxInlineEntry] at large ⊢
    omega
  rw [overflowsFor, if_neg (Nat.not_le.mpr large), partsFor, excess]

-- Beside the longest key, eight bytes are stored whole, and a ninth takes an overflow page.
example : overflowsFor 1015 8 = 0 ∧ overflowsFor 1015 9 = 1 := by decide

theorem overflowsFor_ne_zero {keySize size : Nat} (short : keySize ≤ 1015)
    (large : maxInlineEntry < keySize + 1 + size) : overflowsFor keySize size ≠ 0 := by
  rw [overflowsFor_eq short large]
  simp only [maxInlineEntry, partialHeaderSize, overflowCapacity, pageSize, headerSize] at *
  omega

/-- A value that is encoded where its overflow pages can be appended is decoded from any pages that
have these, whatever else was changed. -/
theorem encode_decode {keySize : Nat} (short : keySize ≤ 1015) (value : Addressable)
    (session : Session σ) (nonempty : session.pages ≠ [])
    (accepts : Accepts (overflowsFor keySize value.1.length) session.device) :
    ∃ (encoded : Bytes) (after : Session σ) (parts : List Overflow),
      Value.encode keySize value.1 session = .ok encoded after ∧
      keySize + encoded.length ≤ maxInlineEntry ∧
      after.pages = session.pages ++ parts.map Overflow.toPage ∧
      ((encoded = fullTag :: value.1 ∧ parts = []) ↔
        keySize + 1 + value.1.length ≤ maxInlineEntry) ∧
      (maxInlineEntry < keySize + 1 + value.1.length →
        (∃ head inline, encoded = partialTag :: (Bytes.ofIndex head ++ inline)) ∧
        parts.length = (partialHeaderSize + keySize + value.1.length - maxInlineEntry +
          (overflowCapacity - 1)) / overflowCapacity) ∧
      ∀ (τ : Type) [Pager τ] [AtomicPager τ] (later : Session τ),
        (∀ index page, fetch session.pages index = none → fetch after.pages index = some page →
          fetch later.pages index = some page) →
        Ends (Value.decode encoded later) (fun found last => found = value.1 ∧ later.Still last)
          later.Denied ∧
        (later.Calm → ∃ last, Value.decode encoded later = .ok value.1 last) := by
  have headerFits : keySize + partialHeaderSize ≤ maxInlineEntry := Nat.add_le_add_right short 9
  have ends := Value.encode_ends headerFits value.1 value.2 session
    (List.length_pos_iff.mpr nonempty)
  rcases ends.exists_ok (fun _ _ fails => fails.2 accepts) with ⟨encoded, after, encodes, stored⟩
  rcases stored.parts with ⟨parts, pages_eq, count⟩
  refine ⟨encoded, after, parts, encodes, stored.small, pages_eq, ⟨?_, ?_⟩, ?_, ?_⟩
  · rintro ⟨_, rfl⟩
    refine Nat.le_of_not_lt fun large => overflowsFor_ne_zero short large ?_
    exact count.symm
  · intro fits
    refine ⟨stored.whole fits, List.length_eq_zero_iff.mp ?_⟩
    rw [count, overflowsFor, if_pos fits]
  · intro large
    refine ⟨stored.cut (Nat.not_le.mpr large), ?_⟩
    rw [count, overflowsFor_eq short large]
  · intro τ _ _ later kept
    have decodes : Value.Decodes later.pages encoded value.1 :=
      stored.decodes.keep_spanned fun index page spans found =>
        kept index page (stored.spans_new index spans) found
    have finds := Value.decode_consults (σ := τ) decodes later rfl
    refine ⟨finds, fun calm => ?_⟩
    rcases finds.exists_ok (fun _ _ denied => denied.stormy calm) with ⟨_, last, found, rfl, _⟩
    exact ⟨last, found⟩

/-- Beside the longest key, of a value with one byte more than fills a page nothing stays inline,
and it takes two pages. -/
theorem encode_decode_two_pages :
    ∃ (encoded : Bytes) (after : Session Memory),
      Value.encode 1015 (List.replicate 4081 7) (⟨⟨[.blank]⟩, []⟩ : Session Memory) =
        .ok encoded after ∧ 1015 + encoded.length ≤ maxInlineEntry ∧ after.pages.length = 3 := by
  obtain ⟨bytes, bytes_eq, size_eq⟩ :
      ∃ bytes : Bytes, List.replicate 4081 7 = bytes ∧ bytes.length = 4081 :=
    ⟨_, rfl, List.length_replicate⟩
  let session : Session Memory := ⟨⟨[.blank]⟩, []⟩
  have accepts : Accepts (overflowsFor 1015 bytes.length) session.device := by
    rw [size_eq]
    exact accepts_of_calm trivial _ (by decide +kernel)
  rcases encode_decode (by decide) ⟨bytes, by rw [size_eq]; decide⟩ session (by decide) accepts with
    ⟨encoded, after, parts, encodes, small, pages_eq, _, large, _⟩
  simp only [size_eq] at large
  rw [bytes_eq]
  refine ⟨encoded, after, encodes, small, ?_⟩
  rw [pages_eq, List.length_append, List.length_map, (large (by decide)).2]
  rfl

end PagedMap
