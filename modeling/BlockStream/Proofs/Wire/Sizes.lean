import BlockStream.Proofs.Wire.Canonical

namespace BlockStream.Wire

open Format

theorem length_number_le {width value : Nat} (hw : 2 ≤ width) (hv : value < 2 ^ 64) :
    ((Vbr.fields width value).flatMap Field.bits).length ≤ 64 * width := by
  have hp : 0 < width - 1 := by omega
  have hstart := Vbr.chunks_start_lt hp hv
  have hcount := Nat.lt_of_le_of_lt (Nat.le_mul_of_pos_right _ hp) hstart
  rw [Vbr.flatMap_fields, length_flatMap_bitsOf]
  exact Nat.mul_le_mul_right width (by omega)

theorem length_flatMap_le_mul {α : Type} {f : α → List Bool} {n : Nat} (xs : List α)
    (h : ∀ x ∈ xs, (f x).length ≤ n) : (xs.flatMap f).length ≤ xs.length * n := by
  induction xs with
  | nil => exact Nat.zero_le _
  | cons x xs ih =>
    have hfirst := h x List.mem_cons_self
    have hrest := ih fun y hy ↦ h y (List.mem_cons_of_mem _ hy)
    rw [List.flatMap_cons, List.length_append, List.length_cons, Nat.succ_mul]
    omega

theorem length_operand_le_mul (op : Operand) :
    ((operand op).flatMap Field.bits).length ≤ 4 + 64 * literalChunk := by
  have hwidth (width : UInt32) := length_number_le (show 2 ≤ operandWidthChunk by decide)
    (Nat.lt_trans width.toNat_lt (show 2 ^ 32 < 2 ^ 64 by decide))
  have hsmall : 64 * operandWidthChunk ≤ 64 * literalChunk := by decide
  cases op with
  | literal value =>
    have := length_number_le (show 2 ≤ literalChunk by decide) value.toNat_lt
    simp only [operand, List.flatMap_cons, List.length_append, Field.bits, length_bitsOf]
    omega
  | fixed width =>
    have := hwidth width
    rw [operand_fixed]
    simp only [List.flatMap_cons, List.length_append, Field.bits, length_bitsOf, encodingWidth]
    omega
  | vbr width =>
    have := hwidth width
    rw [operand_vbr]
    simp only [List.flatMap_cons, List.length_append, Field.bits, length_bitsOf, encodingWidth]
    omega
  | array | char6 | blob | typeIndex =>
    simp [operand, Operand.encoding?, Operand.width?, Field.bits, length_bitsOf, encodingWidth]

def leafBits (n : Nat) : Nat := 128 * recordChunk + n * (4 + 64 * literalChunk)

theorem length_leaf_le_mul {item : Item} (hleaf : item.isBlock = false) {n : Nat}
    (hparts : parts item ≤ n) (hn : n < 2 ^ 64) (width pos : Nat) :
    (ofItem width pos item).length ≤ width + leafBits n := by
  cases item with
  | block => cases hleaf
  | record code operands =>
    have hcode := length_number_le (show 2 ≤ recordChunk by decide) code.toNat_lt
    have hcount := length_number_le (show 2 ≤ recordChunk by decide)
      (Nat.lt_of_le_of_lt hparts hn)
    have hvalues := length_flatMap_le_mul operands fun v _ ↦
      length_number_le (show 2 ≤ recordChunk by decide) v.toNat_lt
    have hmul : operands.length * (64 * recordChunk) ≤ n * (4 + 64 * literalChunk) :=
      Nat.mul_le_mul hparts (by decide)
    simp only [ofItem, record, List.flatMap_cons, List.flatMap_append, List.flatMap_assoc,
      List.length_append, Field.bits, length_bitsOf, leafBits, parts] at *
    omega
  | definition layout =>
    have hcount := length_number_le (show 2 ≤ operandCountChunk by decide)
      (Nat.lt_of_le_of_lt hparts hn)
    have hoperands := length_flatMap_le_mul layout fun op _ ↦ length_operand_le_mul op
    have hmul : layout.length * (4 + 64 * literalChunk) ≤ n * (4 + 64 * literalChunk) :=
      Nat.mul_le_mul_right _ hparts
    have hsmall : 64 * operandCountChunk ≤ 128 * recordChunk := by decide
    simp only [ofItem, definition, List.flatMap_cons, List.flatMap_append, List.flatMap_assoc,
      List.length_append, Field.bits, length_bitsOf, leafBits, parts] at *
    omega

theorem length_leaves_le_mul {items : List Item} {n : Nat}
    (h : ∀ item ∈ items, item.isBlock = false ∧ parts item ≤ n) (hn : n < 2 ^ 64)
    (width pos : Nat) :
    (ofItems width pos items).length ≤ items.length * (width + leafBits n) := by
  induction items generalizing pos with
  | nil => exact Nat.zero_le _
  | cons item rest ih =>
    obtain ⟨hleaf, hparts⟩ := h item List.mem_cons_self
    have hitem := length_leaf_le_mul hleaf hparts hn width pos
    have hrest := ih (fun i hi ↦ h i (List.mem_cons_of_mem _ hi))
      (pos + (ofItem width pos item).length)
    rw [ofItems, List.length_append, List.length_cons, Nat.succ_mul]
    omega

theorem length_closing_lt (pos width : Nat) : (closing pos width).length < width + 32 := by
  have hpad := length_padding_lt (pos + ((exit width).flatMap Field.bits).length)
  have hmarker : ((exit width).flatMap Field.bits).length = width := by
    simp [exit, Field.bits, length_bitsOf]
  rw [closing, List.length_append]
  omega

theorem bodyWords_le {items : List Item} {n : Nat}
    (h : ∀ item ∈ items, item.isBlock = false ∧ parts item ≤ n) (hn : n < 2 ^ 64) (width : Nat) :
    bodyWords width items ≤ items.length * (width + leafBits n) + width + 32 := by
  have hitems := length_leaves_le_mul h hn width 0
  have hclosing := length_closing_lt (ofItems width 0 items).length width
  rw [bodyWords, List.length_append]
  omega

end BlockStream.Wire
