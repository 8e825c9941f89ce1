import BlockStream.Proofs.Decode.Canonical
import BlockStream.Proofs.Wire.Recount

namespace BlockStream

/-- How much stands in a tree, over all its levels. -/
structure Tally where
  blocks : Nat := 0
  records : Nat := 0
  /-- Operands of records. -/
  operands : Nat := 0
  definitions : Nat := 0
  /-- Operands of definitions. -/
  layoutOperands : Nat := 0
  deriving DecidableEq, Repr

namespace Tally

def add (s t : Tally) : Tally :=
  ⟨s.blocks + t.blocks, s.records + t.records, s.operands + t.operands,
    s.definitions + t.definitions, s.layoutOperands + t.layoutOperands⟩

/-- The fewest bits in which so much can be written: a marker and an end marker of one bit, the
two numbers and the length word of a header; a marker of two bits and two numbers for a record, one
for a definition; a chunk for each operand of a record, four bits for each of a definition. -/
def bits (t : Tally) : Nat :=
  46 * t.blocks + 14 * t.records + 6 * t.operands + 7 * t.definitions + 4 * t.layoutOperands

theorem bits_add (s t : Tally) : (s.add t).bits = s.bits + t.bits := by
  simp only [bits, add]
  omega

end Tally

mutual

def Item.tally : Item → Tally
  | .block _ items => Tally.add { blocks := 1 } (Item.tallyAll items)
  | .record _ operands => { records := 1, operands := operands.length }
  | .definition layout => { definitions := 1, layoutOperands := layout.length }
termination_by structural item => item

def Item.tallyAll : List Item → Tally
  | [] => {}
  | item :: rest => item.tally.add (Item.tallyAll rest)
termination_by structural items => items

end

def Stream.tally (S : Stream) : Tally := Item.tallyAll S.items

namespace Wire

open Format

theorem lt_width_of_isField {n width value : Nat} {bits : List Bool} (h : IsField width value bits)
    (hv : 2 ^ n ≤ value) : n < width :=
  (Nat.pow_lt_pow_iff_right (by decide)).mp (Nat.lt_of_le_of_lt hv h.1)

theorem width_le_of_isVbr {width value : Nat} {bits : List Bool} (h : IsVbr width value bits) :
    width ≤ bits.length := by
  obtain ⟨-, chunks, hchain, -, -, rfl⟩ := h
  rw [length_flatMap_bitsOf]
  exact Nat.le_mul_of_pos_left width (List.length_pos_iff.mpr hchain.ne_nil)

theorem mul_length_le_of_isList {α : Type} {P : α → List Bool → Prop} {n : Nat}
    (hP : ∀ x bits, P x bits → n ≤ bits.length) {xs : List α} {bits : List Bool}
    (h : IsList P xs bits) : n * xs.length ≤ bits.length := by
  induction xs generalizing bits with
  | nil => exact Nat.zero_le _
  | cons x xs ih =>
    obtain ⟨front, back, hx, hxs, rfl⟩ := isList_cons.mp h
    have hfront := hP x front hx
    have hback := ih hxs
    rw [List.length_cons, Nat.mul_succ, List.length_append]
    omega

theorem four_le_of_isOperand {op : Operand} {bits : List Bool} (h : IsOperand op bits) :
    4 ≤ bits.length := by
  cases h with
  | literal hvalue =>
    have hlen := width_le_of_isVbr hvalue
    exact Nat.le_succ_of_le (Nat.le_trans (by decide) hlen)
  | fixed | vbr =>
    simp only [List.length_append, List.length_cons, length_bitsOf, encodingWidth]
    omega
  | array | char6 | blob => exact Nat.le_refl 4

theorem bits_tally_le_of_isLeaf {width : Nat} {item : Item} {bits : List Bool}
    (h : IsLeaf width item bits) : item.tally.bits ≤ bits.length := by
  cases h with
  | definition hmarker hbits =>
    obtain ⟨count, operands, hcount, hoperands, rfl⟩ := hbits
    have hwidth := lt_width_of_isField (n := 1) hmarker (by decide)
    have hcount := width_le_of_isVbr hcount
    have hoperands := mul_length_le_of_isList (fun _ _ ↦ four_le_of_isOperand) hoperands
    simp only [Item.tally, Tally.bits, List.length_append, hmarker.length_eq, operandCountChunk]
      at hcount ⊢
    omega
  | record hmarker hbits =>
    obtain ⟨number, count, values, hnumber, hcount, hvalues, rfl⟩ := hbits
    have hwidth := lt_width_of_isField (n := 1) hmarker (by decide)
    have hnumber := width_le_of_isVbr hnumber
    have hcount := width_le_of_isVbr hcount
    have hvalues := mul_length_le_of_isList (fun _ _ ↦ width_le_of_isVbr) hvalues
    simp only [Item.tally, Tally.bits, List.length_append, hmarker.length_eq, recordChunk]
      at hnumber hcount hvalues ⊢
    omega

theorem length_header_ge {pos : Nat} {h : Header} {bits : List Bool} (hh : IsHeader pos h bits) :
    44 ≤ bits.length := by
  obtain ⟨id, width, padding, hid, hwidth, -, -, -, rfl⟩ := hh
  have hid := width_le_of_isVbr hid
  have hwidth := width_le_of_isVbr hwidth
  simp only [List.length_append, length_bitsOf, blockIdChunk, blockWidthChunk] at hid hwidth ⊢
  omega

/-- Whatever stands in items has bits of its own in what they are written as. -/
theorem bits_tallyAll_le {width pos : Nat} {items : List Item} {bits : List Bool}
    (h : IsItems width pos items bits) : (Item.tallyAll items).bits ≤ bits.length := by
  induction h with
  | nil => exact Nat.zero_le _
  | leaf hleaf _ ih =>
    have hitem := bits_tally_le_of_isLeaf hleaf
    simp only [Item.tallyAll, Tally.bits_add, List.length_append]
    omega
  | block hmarker hheader _ hending _ _ ihBody ihRest =>
    have hwidth := lt_width_of_isField (n := 0) hmarker (by decide)
    have hheader' := length_header_ge hheader
    obtain ⟨_, _, _, -, -, hpos, -⟩ := hheader
    obtain ⟨marker, padding, hend, -, rfl⟩ := hending
    have hone : Tally.bits { blocks := 1 } = 46 := rfl
    simp only [Item.tallyAll, Item.tally, Tally.bits_add, hone, List.length_append,
      hmarker.length_eq, hend.length_eq]
    omega

end Wire

namespace Decode

open Format Wire

/-- Whatever counts a stream declares, decoding makes no more of it than its bits pay for. -/
theorem tally_le_of_decode {bytes : ByteArray} {S : Stream} (h : Stream.decode bytes = .ok S) :
    46 * S.tally.blocks + 14 * S.tally.records + 6 * S.tally.operands +
      7 * S.tally.definitions + 4 * S.tally.layoutOperands ≤ 8 * (bytes.size - 4) := by
  obtain ⟨-, body, rfl, hitems⟩ := isWritten_of_decode h
  have hsize : (magic ++ body).size = 4 + body.size := ByteArray.size_append
  have hbits := bits_tallyAll_le hitems
  rw [allBits, length_bitsAt] at hbits
  rw [hsize, Nat.add_sub_cancel_left]
  exact hbits

theorem tally_le_of_decode_nested :
    let bytes := magic ++ ⟨#[33, 12, 0, 0, 5, 0, 0, 0, 137, 32, 0, 0, 2, 0, 0, 0, 34, 22, 8, 153,
      32, 16, 0, 0, 59, 2, 54, 1]⟩
    let S : Stream := ⟨[⟨⟨8, 3, 5⟩, [.block ⟨17, 4, 2⟩ [.definition [.literal 5, .fixed 4],
      .record 1 [2]], .record 7 [300]]⟩]⟩
    Stream.decode bytes = .ok S ∧ S.tally = ⟨2, 2, 2, 1, 2⟩ ∧
      46 * S.tally.blocks + 14 * S.tally.records + 6 * S.tally.operands +
        7 * S.tally.definitions + 4 * S.tally.layoutOperands ≤ 8 * (bytes.size - 4) := by
  intro bytes S
  have hdecode : Stream.decode bytes = .ok S :=
    (decode_of_ofItems (by decide +kernel) (by decide +kernel)).trans (if_pos (by decide))
  exact ⟨hdecode, rfl, tally_le_of_decode hdecode⟩

end Decode

end BlockStream
