import PagedMap.Page.View
import PagedMap.Proofs.Page.Sides

/-!
# Pages show what they store

A page that stores a leaf, a node, a part of a long value or an anchor is of the kind that says so,
and what it stores is read back from it.
-/

namespace PagedMap

theorem Page.kind?_of_bytes_eq {page : Page} {kind : Kind} {rest : Bytes}
    (bytes_eq : page.bytes = kind.byte :: rest) : page.kind? = some kind := by
  rw [kind?, kindByte, bytes_eq]
  exact Kind.ofByte?_byte kind

@[simp]
theorem Leaf.kind?_toPage (leaf : Leaf) : leaf.toPage.kind? = some .leaf :=
  Page.kind?_of_bytes_eq rfl

@[simp]
theorem Node.kind?_toPage (node : Node) : node.toPage.kind? = some .node :=
  Page.kind?_of_bytes_eq rfl

@[simp]
theorem Overflow.kind?_toPage (overflow : Overflow) : overflow.toPage.kind? = some .overflow :=
  Page.kind?_of_bytes_eq rfl

@[simp]
theorem Leaf.view_toPage (leaf : Leaf) : leaf.toPage.view = .ok (.leaf leaf) := by
  simp only [Page.view, kind?_toPage, ofBytes_toPage]

@[simp]
theorem Node.view_toPage (node : Node) : node.toPage.view = .ok (.node node) := by
  simp only [Page.view, kind?_toPage, ofBytes_toPage]

@[simp]
theorem Overflow.view_toPage (overflow : Overflow) :
    overflow.toPage.view = .ok (.overflow overflow) := by
  simp only [Page.view, kind?_toPage, ofBytes_toPage]

theorem Leaf.toPage_inj {left right : Leaf} (same : left.toPage = right.toPage) : left = right := by
  rw [← ofBytes_toPage left, same, ofBytes_toPage]

theorem Node.toPage_inj {left right : Node} (same : left.toPage = right.toPage) : left = right := by
  rw [← ofBytes_toPage left, same, ofBytes_toPage]

theorem Overflow.toPage_inj {left right : Overflow} (same : left.toPage = right.toPage) :
    left = right := by
  rw [← left.ofBytes_toPage, same, right.ofBytes_toPage]

/-! ## Anchors -/

namespace Anchor

@[simp]
theorem kind?_toPage (anchor : Anchor) : anchor.toPage.kind? = some .anchor := by
  cases anchor
  rfl

/-- A field of an anchor page, by the fields in front of it. -/
theorem slice_toPage {anchor : Anchor} (front field : Bytes) {back : Bytes}
    (fields_eq : anchor.fields = front ++ (field ++ back)) :
    anchor.toPage.slice (headerSize + front.length) field.length = field := by
  have head : ((Page.ofKind .anchor).bytes.take headerSize).length = headerSize := by decide
  simp only [Buffer.slice, toPage, Buffer.overwrite, fields_eq]
  rw [← List.drop_drop, List.drop_left' head, List.append_assoc, List.drop_left,
    List.append_assoc, List.take_left]

/-- What is written as an anchor page is read back from it. -/
theorem ofPage_toPage (anchor : Anchor) : ofPage anchor.toPage = .ok anchor := by
  have fields_eq : anchor.fields = magic ++ (Bytes.ofUInt64 formatVersion ++
      (Bytes.ofIndex anchor.root ++ (Bytes.ofIndex anchor.sentinel ++
        (Bytes.ofUInt64 anchor.sequence ++ [])))) := by
    simp only [fields, List.append_assoc, List.append_nil]
  have magicField : anchor.toPage.slice 8 8 = magic := slice_toPage [] magic fields_eq
  have versionField : anchor.toPage.slice 16 8 = Bytes.ofUInt64 formatVersion :=
    slice_toPage magic (Bytes.ofUInt64 formatVersion) fields_eq
  have rootField : anchor.toPage.slice 24 8 = Bytes.ofIndex anchor.root :=
    slice_toPage (magic ++ Bytes.ofUInt64 formatVersion) (Bytes.ofIndex anchor.root)
      (by rw [fields_eq, List.append_assoc])
  have sentinelField : anchor.toPage.slice 32 8 = Bytes.ofIndex anchor.sentinel :=
    slice_toPage (magic ++ Bytes.ofUInt64 formatVersion ++ Bytes.ofIndex anchor.root)
      (Bytes.ofIndex anchor.sentinel) (by rw [fields_eq, List.append_assoc, List.append_assoc])
  have sequenceField : anchor.toPage.slice 40 8 = Bytes.ofUInt64 anchor.sequence :=
    slice_toPage (magic ++ Bytes.ofUInt64 formatVersion ++ Bytes.ofIndex anchor.root ++
        Bytes.ofIndex anchor.sentinel) (Bytes.ofUInt64 anchor.sequence)
      (by rw [fields_eq, List.append_assoc, List.append_assoc, List.append_assoc])
  rw [ofPage, kind?_toPage, magicField, versionField, rootField, sentinelField, sequenceField]
  simp

theorem toPage_inj {left right : Anchor} (same : left.toPage = right.toPage) : left = right := by
  have readLeft := ofPage_toPage left
  rw [same, ofPage_toPage] at readLeft
  injection readLeft with readLeft
  exact readLeft.symm

end Anchor

end PagedMap
