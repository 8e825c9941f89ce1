import BlockStream.Tree
import BlockStream.Proofs.Wire.Grammar

namespace BlockStream.Wire

open Format

/-- What stands in front of a block's length word, from position `pos` on. -/
def opening (pos width : Nat) (id blockWidth : UInt32) : List Bool :=
  let fields := (enter width id blockWidth).flatMap Field.bits
  fields ++ padding (pos + fields.length)

def closing (pos width : Nat) : List Bool :=
  let marker := (exit width).flatMap Field.bits
  marker ++ padding (pos + marker.length)

mutual

def ofItem (width pos : Nat) : Item → List Bool
  | .record code operands => (record width code operands).flatMap Field.bits
  | .definition layout => (definition width layout).flatMap Field.bits
  | .block h body =>
    let front := opening pos width h.id h.abbrevWidth ++ bitsOf 32 h.lengthWords.toNat
    let inner := ofItems h.abbrevWidth.toNat (pos + front.length) body
    front ++ inner ++ closing (pos + (front ++ inner).length) h.abbrevWidth.toNat
termination_by structural item => item

/-- Items one after the other, the first at position `pos`. -/
def ofItems (width pos : Nat) : List Item → List Bool
  | [] => []
  | item :: rest =>
    ofItem width pos item ++ ofItems width (pos + (ofItem width pos item).length) rest
termination_by structural items => items

end

def bodyWords (width : Nat) (body : List Item) : Nat :=
  let inner := ofItems width 0 body
  (inner ++ closing inner.length width).length / 32

section Positions

theorem opening_aligned (pos width : Nat) (id blockWidth : UInt32) :
    (pos + (opening pos width id blockWidth).length) % 32 = 0 := by
  rw [opening, List.length_append, ← Nat.add_assoc]
  exact padding_aligned _

theorem closing_aligned (pos width : Nat) : (pos + (closing pos width).length) % 32 = 0 := by
  rw [closing, List.length_append, ← Nat.add_assoc]
  exact padding_aligned _

theorem length_closing_pos (pos : Nat) {width : Nat} (hw : 0 < width) :
    0 < (closing pos width).length := by
  simp only [closing, exit, List.flatMap_cons, List.flatMap_nil, List.append_nil,
    List.length_append, Field.bits, length_bitsOf]
  omega

theorem opening_congr {p q : Nat} (h : p % 32 = q % 32) (width : Nat) (id blockWidth : UInt32) :
    opening p width id blockWidth = opening q width id blockWidth := by
  simp only [opening]
  rw [padding_congr]
  omega

theorem closing_congr {p q : Nat} (h : p % 32 = q % 32) (width : Nat) :
    closing p width = closing q width := by
  simp only [closing]
  rw [padding_congr]
  omega

mutual

theorem ofItem_congr {p q : Nat} (h : p % 32 = q % 32) (width : Nat) : (item : Item) →
    ofItem width p item = ofItem width q item
  | .record .. | .definition _ => rfl
  | .block header body => by
    have hshift (n : Nat) : (p + n) % 32 = (q + n) % 32 := by omega
    simp only [ofItem, opening_congr h]
    rw [ofItems_congr (hshift _) header.abbrevWidth.toNat body, closing_congr (hshift _)]
termination_by structural item => item

theorem ofItems_congr {p q : Nat} (h : p % 32 = q % 32) (width : Nat) : (items : List Item) →
    ofItems width p items = ofItems width q items
  | [] => rfl
  | item :: rest => by
    have hshift (n : Nat) : (p + n) % 32 = (q + n) % 32 := by omega
    simp only [ofItems, ofItem_congr h width item]
    rw [ofItems_congr (hshift _) width rest]
termination_by structural items => items

end

theorem ofItems_append (width pos : Nat) (xs ys : List Item) :
    ofItems width pos (xs ++ ys) =
      ofItems width pos xs ++ ofItems width (pos + (ofItems width pos xs).length) ys := by
  induction xs generalizing pos with
  | nil => rfl
  | cons x xs ih =>
    rw [List.cons_append, ofItems, ih, ofItems, List.append_assoc, List.length_append,
      Nat.add_assoc]

theorem ofItem_aligned {item : Item} (h : item.isBlock = true) (width pos : Nat) :
    (pos + (ofItem width pos item).length) % 32 = 0 := by
  cases item with
  | block header body =>
    simp only [ofItem]
    rw [List.length_append, ← Nat.add_assoc]
    exact closing_aligned _ _
  | record => cases h
  | definition => cases h

theorem ofItems_aligned {items : List Item} (h : ∀ item ∈ items, item.isBlock = true) (width : Nat)
    {pos : Nat} (hpos : pos % 32 = 0) : (pos + (ofItems width pos items).length) % 32 = 0 := by
  induction items generalizing pos with
  | nil => exact hpos
  | cons item rest ih =>
    have hitem := ofItem_aligned (h item List.mem_cons_self) width pos
    rw [ofItems, List.length_append, ← Nat.add_assoc]
    exact ih (fun i hi ↦ h i (List.mem_cons_of_mem _ hi)) hitem

theorem ofItems_singleton (width pos : Nat) (item : Item) :
    ofItems width pos [item] = ofItem width pos item := by
  rw [ofItems, ofItems, List.append_nil]

end Positions

section Leaves

theorem isVbr_fields {width value : Nat} (hw : 2 ≤ width) (hv : value < 2 ^ 64) :
    IsVbr width value ((Vbr.fields width value).flatMap Field.bits) := by
  have hp : 0 < width - 1 := by omega
  exact ⟨hv, Vbr.chunks (width - 1) value, Vbr.chain_chunks hp value, Vbr.chunks_start_lt hp hv,
    Vbr.ofChunks_chunks hp value, Vbr.flatMap_fields width value⟩

theorem operand_fixed (width : UInt32) :
    operand (.fixed width) =
      ⟨1, 0⟩ :: ⟨encodingWidth, 1⟩ :: Vbr.fields operandWidthChunk width.toNat := by
  simp [operand, Operand.encoding?, Operand.width?, Encoding.tag]

theorem operand_vbr (width : UInt32) :
    operand (.vbr width) =
      ⟨1, 0⟩ :: ⟨encodingWidth, 2⟩ :: Vbr.fields operandWidthChunk width.toNat := by
  simp [operand, Operand.encoding?, Operand.width?, Encoding.tag]

theorem isOperand_fields {op : Operand} (h : op ≠ .typeIndex) :
    IsOperand op ((operand op).flatMap Field.bits) := by
  have hwidth (width : UInt32) : IsVbr operandWidthChunk width.toNat
      ((Vbr.fields operandWidthChunk width.toNat).flatMap Field.bits) :=
    isVbr_fields (by decide) (Nat.lt_trans width.toNat_lt (by decide))
  cases op with
  | literal value => exact .literal (isVbr_fields (by decide) value.toNat_lt)
  | fixed width =>
    rw [operand_fixed]
    exact .fixed (hwidth width)
  | vbr width =>
    rw [operand_vbr]
    exact .vbr (hwidth width)
  | array => exact .array
  | char6 => exact .char6
  | blob => exact .blob
  | typeIndex => exact absurd rfl h

theorem isList_flatMap {α : Type} {P : α → List Bool → Prop} {f : α → List Bool} {xs : List α}
    (h : ∀ x ∈ xs, P x (f x)) : IsList P xs (xs.flatMap f) := by
  refine ⟨xs.map f, ?_, rfl⟩
  rw [List.forall₂_map_right_iff]
  exact List.forall₂_same.mpr h

theorem isDefinition_fields {layout : Layout} (h : .typeIndex ∉ layout)
    (hlen : layout.length < 2 ^ 64) :
    IsDefinition layout ((Vbr.fields operandCountChunk layout.length ++
      layout.flatMap operand).flatMap Field.bits) := by
  rw [List.flatMap_append, List.flatMap_assoc]
  refine ⟨_, _, isVbr_fields (by decide) hlen, isList_flatMap fun op hop ↦ ?_, rfl⟩
  exact isOperand_fields fun htype ↦ h (htype ▸ hop)

theorem isRecord_fields (code : UInt64) {operands : List UInt64}
    (hlen : operands.length < 2 ^ 64) :
    IsRecord code operands ((Vbr.fields recordChunk code.toNat ++
      Vbr.fields recordChunk operands.length ++
      operands.flatMap fun v ↦ Vbr.fields recordChunk v.toNat).flatMap Field.bits) := by
  rw [List.flatMap_append, List.flatMap_append, List.flatMap_assoc]
  exact ⟨_, _, _, isVbr_fields (by decide) code.toNat_lt, isVbr_fields (by decide) hlen,
    isList_flatMap fun v _ ↦ isVbr_fields (by decide) v.toNat_lt, rfl⟩

end Leaves

section Counts

def parts : Item → Nat
  | .record _ operands => operands.length
  | .definition layout => layout.length
  | .block .. => 0

theorem length_le_flatMap {α : Type} {f : α → List Bool} (hf : ∀ x, 0 < (f x).length)
    (xs : List α) : xs.length ≤ (xs.flatMap f).length := by
  induction xs with
  | nil => exact Nat.le_refl _
  | cons x xs ih =>
    have := hf x
    rw [List.flatMap_cons, List.length_append, List.length_cons]
    omega

theorem length_fields_pos {width : Nat} (hw : 2 ≤ width) (value : Nat) :
    0 < ((Vbr.fields width value).flatMap Field.bits).length := by
  have hchunks := Vbr.length_chunks_pos (show 0 < width - 1 by omega) value
  rw [Vbr.flatMap_fields, length_flatMap_bitsOf]
  exact Nat.mul_pos hchunks (by omega)

theorem parts_le_length (width pos : Nat) (item : Item) :
    parts item ≤ (ofItem width pos item).length := by
  cases item with
  | record code operands =>
    have hlen := length_le_flatMap
      (f := fun v ↦ (Vbr.fields recordChunk v.toNat).flatMap Field.bits)
      (fun v ↦ length_fields_pos (by decide) v.toNat) operands
    simp only [parts, ofItem, record, List.flatMap_cons, List.flatMap_append, List.flatMap_assoc,
      List.length_append]
    exact Nat.le_trans hlen (by omega)
  | definition layout =>
    have hlen := length_le_flatMap (f := fun op ↦ (operand op).flatMap Field.bits)
      (fun op ↦ by cases op <;> simp [operand, Field.bits, bitsOf]) layout
    simp only [parts, ofItem, definition, List.flatMap_cons, List.flatMap_append,
      List.flatMap_assoc, List.length_append]
    omega
  | block h body => exact Nat.zero_le _

theorem parts_le_of_mem (width pos : Nat) {items : List Item} {item : Item} (h : item ∈ items) :
    parts item ≤ (ofItems width pos items).length := by
  induction items generalizing pos with
  | nil => cases h
  | cons first rest ih =>
    rw [ofItems, List.length_append]
    rcases List.mem_cons.mp h with rfl | hrest
    · exact Nat.le_trans (parts_le_length width pos item) (Nat.le_add_right ..)
    · exact Nat.le_trans (ih _ hrest) (Nat.le_add_left ..)

theorem length_body (width : Nat) (body : List Item) :
    (ofItems width 0 body ++ closing (ofItems width 0 body).length width).length =
      32 * bodyWords width body := by
  have haligned := closing_aligned (ofItems width 0 body).length width
  simp only [bodyWords]
  rw [← List.length_append] at haligned
  omega

end Counts

section Regular

mutual

/-- An item as sessions write it: no operand is left open, and the length words count the bodies. -/
def Regular : Item → Prop
  | .record .. => True
  | .definition layout => .typeIndex ∉ layout
  | .block h body =>
    2 ≤ h.abbrevWidth.toNat ∧ h.abbrevWidth.toNat ≤ maxAbbrevWidth ∧
      h.lengthWords.toNat = bodyWords h.abbrevWidth.toNat body ∧ AllRegular body
termination_by structural item => item

def AllRegular : List Item → Prop
  | [] => True
  | item :: rest => Regular item ∧ AllRegular rest
termination_by structural items => items

end

mutual

def decidableRegular : (item : Item) → Decidable (Regular item)
  | .record .. => .isTrue trivial
  | .definition layout => inferInstanceAs (Decidable (.typeIndex ∉ layout))
  | .block h body =>
    have := decidableAllRegular body
    inferInstanceAs (Decidable (2 ≤ h.abbrevWidth.toNat ∧ h.abbrevWidth.toNat ≤ maxAbbrevWidth ∧
      h.lengthWords.toNat = bodyWords h.abbrevWidth.toNat body ∧ AllRegular body))
termination_by structural item => item

def decidableAllRegular : (items : List Item) → Decidable (AllRegular items)
  | [] => .isTrue trivial
  | item :: rest =>
    have := decidableRegular item
    have := decidableAllRegular rest
    inferInstanceAs (Decidable (Regular item ∧ AllRegular rest))
termination_by structural items => items

end

instance : DecidablePred AllRegular := decidableAllRegular

theorem allRegular_append {xs ys : List Item} :
    AllRegular (xs ++ ys) ↔ AllRegular xs ∧ AllRegular ys := by
  induction xs with
  | nil => simp [AllRegular]
  | cons x xs ih => rw [List.cons_append, AllRegular, AllRegular, ih, and_assoc]

theorem isField_marker {width : Nat} (hw : 2 ≤ width) {value : Nat} (hv : value ≤ 3) :
    IsField width value (bitsOf width value) := by
  have hpow : 2 ^ 2 ≤ 2 ^ width := Nat.pow_le_pow_right Nat.two_pos hw
  exact ⟨by omega, rfl⟩

theorem isPadding_padding (pos : Nat) : IsPadding pos (padding pos) :=
  ⟨length_padding_lt pos, padding_aligned pos⟩

theorem isEnd_closing (pos : Nat) {width : Nat} (hw : 2 ≤ width) :
    IsEnd width pos (closing pos width) := by
  have hmarker : (exit width).flatMap Field.bits = bitsOf width endBlock := by
    simp [exit, Field.bits]
  rw [closing, hmarker]
  exact ⟨_, _, isField_marker hw (by decide), isPadding_padding _, rfl⟩

theorem isHeader_opening (pos width : Nat) {h : Header} (hpos : 0 < h.abbrevWidth.toNat)
    (hle : h.abbrevWidth.toNat ≤ maxAbbrevWidth) :
    ∃ header, IsHeader (pos + width) h header ∧
      opening pos width h.id h.abbrevWidth ++ bitsOf 32 h.lengthWords.toNat =
        bitsOf width enterSubblock ++ header := by
  have hid : h.id.toNat < 2 ^ 64 := Nat.lt_trans h.id.toNat_lt (by decide)
  have hwidth : h.abbrevWidth.toNat < 2 ^ 64 := Nat.lt_trans h.abbrevWidth.toNat_lt (by decide)
  refine ⟨_, ⟨_, _, _, isVbr_fields (by decide) hid, isVbr_fields (by decide) hwidth, hpos, hle,
    isPadding_padding _, rfl⟩, ?_⟩
  simp [opening, enter, Field.bits, length_bitsOf, Nat.add_assoc]

theorem isLeaf_ofItem {item : Item} (hflat : item.isBlock = false) {width : Nat} (hw : 2 ≤ width)
    (pos : Nat) (hregular : Regular item) (hparts : parts item < 2 ^ 64) :
    IsLeaf width item (ofItem width pos item) := by
  cases item with
  | block => cases hflat
  | record code operands =>
    exact .record (isField_marker hw (by decide)) (isRecord_fields code hparts)
  | definition layout =>
    exact .definition (isField_marker hw (by decide)) (isDefinition_fields hregular hparts)

theorem exists_parts_of_regular {h : Header} {body : List Item}
    (hregular : Regular (.block h body)) (width pos : Nat) :
    ∃ header, IsHeader (pos + width) h header ∧
      opening pos width h.id h.abbrevWidth ++ bitsOf 32 h.lengthWords.toNat =
        bitsOf width enterSubblock ++ header ∧
      (∀ p, p % 32 = 0 →
        (ofItems h.abbrevWidth.toNat p body ++
          closing (p + (ofItems h.abbrevWidth.toNat p body).length) h.abbrevWidth.toNat).length =
            32 * h.lengthWords.toNat) ∧
      ∀ item ∈ body, parts item < 2 ^ 64 := by
  obtain ⟨hlow, hle, hwords, -⟩ := hregular
  obtain ⟨header, hheader, hfront⟩ := isHeader_opening pos width (by omega) hle
  have hlength := length_body h.abbrevWidth.toNat body
  refine ⟨header, hheader, hfront, fun p hp ↦ ?_, fun item hitem ↦ ?_⟩
  · -- the body begins on a word, so its length is that from position 0 on
    have hinner := ofItems_congr (show p % 32 = 0 % 32 by omega) h.abbrevWidth.toNat body
    rw [hinner, closing_congr (q := (ofItems h.abbrevWidth.toNat 0 body).length) (by omega),
      hlength, hwords]
  · have hle := parts_le_of_mem h.abbrevWidth.toNat 0 hitem
    have hlt := h.lengthWords.toNat_lt
    rw [List.length_append] at hlength
    omega

theorem isItems_ofItems (items : List Item) {width : Nat} (hw : 2 ≤ width) (pos : Nat)
    (hregular : AllRegular items) (hparts : ∀ item ∈ items, parts item < 2 ^ 64) :
    IsItems width pos items (ofItems width pos items) := by
  match items with
  | [] => exact .nil width pos
  | item :: rest =>
    have hrest (p : Nat) := isItems_ofItems rest hw p hregular.2
      fun i hi ↦ hparts i (List.mem_cons_of_mem _ hi)
    match item with
    | .record .. | .definition _ =>
      exact .leaf (isLeaf_ofItem rfl hw pos hregular.1 (hparts _ List.mem_cons_self)) (hrest _)
    | .block h body =>
      obtain ⟨hlow, -, -, hbody⟩ := hregular.1
      obtain ⟨header, hheader, hfront, hlength, hfits⟩ :=
        exists_parts_of_regular hregular.1 width pos
      have hitems (p : Nat) := isItems_ofItems body hlow p hbody hfits
      have haligned : (pos + (bitsOf width enterSubblock ++ header).length) % 32 = 0 := by
        rw [List.length_append, length_bitsOf, ← Nat.add_assoc]
        exact hheader.aligned
      rw [ofItems, ofItem, hfront]
      refine .block (isField_marker hw (by decide)) ?_ (hitems _) (isEnd_closing _ hlow) ?_
        (hrest _)
      · rwa [length_bitsOf]
      · have hinner := hlength _ haligned
        rwa [Nat.add_assoc, ← List.length_append] at hinner
termination_by sizeOf items

end Regular

end BlockStream.Wire
