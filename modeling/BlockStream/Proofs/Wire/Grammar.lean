import BlockStream.Format
import BlockStream.Tree
import BlockStream.Proofs.Chunks
import Mathlib.Data.List.Forall2

namespace BlockStream

/-- Where an item stands: its number among the items around it, behind it that of the block around
it, and so on outwards. -/
abbrev Place := List Nat

mutual

/-- How many blocks stand inside one another, the item included. -/
def Item.depth : Item → Nat
  | .block _ items => Item.depthAll items + 1
  | .record .. | .definition .. => 0
termination_by structural item => item

def Item.depthAll : List Item → Nat
  | [] => 0
  | item :: rest => max item.depth (Item.depthAll rest)
termination_by structural items => items

end

theorem Item.depthAll_append (xs ys : List Item) :
    Item.depthAll (xs ++ ys) = max (Item.depthAll xs) (Item.depthAll ys) := by
  induction xs with
  | nil => rw [List.nil_append, Item.depthAll, Nat.zero_max]
  | cons x xs ih => rw [List.cons_append, Item.depthAll, ih, Item.depthAll, Nat.max_assoc]

def Stream.items (s : Stream) : List Item := s.blocks.map Block.toItem

def Stream.depth (s : Stream) : Nat := Item.depthAll s.items

theorem Stream.isBlock_of_mem_items (S : Stream) {item : Item} (h : item ∈ S.items) :
    item.isBlock = true := by
  obtain ⟨block, -, rfl⟩ := List.mem_map.mp h
  rfl

namespace Wire

open Format

def IsField (width value : Nat) (bits : List Bool) : Prop :=
  value < 2 ^ width ∧ bits = bitsOf width value

theorem IsField.length_eq {width value : Nat} {bits : List Bool} (h : IsField width value bits) :
    bits.length = width := by rw [h.2, length_bitsOf]

/-- A number below 2 ^ 64 in a chain of chunks, each of which begins at one of 64 payload digits. -/
def IsVbr (width value : Nat) (bits : List Bool) : Prop :=
  value < 2 ^ 64 ∧ ∃ chunks, Vbr.Chain (width - 1) chunks ∧
    (chunks.length - 1) * (width - 1) < 64 ∧
    Vbr.ofChunks (width - 1) chunks = value ∧ bits = chunks.flatMap (bitsOf width)

/-- Any bits up to the next multiple of 32. -/
def IsPadding (pos : Nat) (bits : List Bool) : Prop :=
  bits.length < 32 ∧ (pos + bits.length) % 32 = 0

inductive IsOperand : Operand → List Bool → Prop
  | literal {value : UInt64} {bits : List Bool} :
      IsVbr literalChunk value.toNat bits → IsOperand (.literal value) (true :: bits)
  | fixed {width : UInt32} {bits : List Bool} :
      IsVbr operandWidthChunk width.toNat bits →
      IsOperand (.fixed width) (false :: bitsOf encodingWidth 1 ++ bits)
  | vbr {width : UInt32} {bits : List Bool} :
      IsVbr operandWidthChunk width.toNat bits →
      IsOperand (.vbr width) (false :: bitsOf encodingWidth 2 ++ bits)
  | array : IsOperand .array (false :: bitsOf encodingWidth 3)
  | char6 : IsOperand .char6 (false :: bitsOf encodingWidth 4)
  | blob : IsOperand .blob (false :: bitsOf encodingWidth 5)

def IsList {α : Type} (P : α → List Bool → Prop) (xs : List α) (bits : List Bool) : Prop :=
  ∃ parts, List.Forall₂ P xs parts ∧ bits = parts.flatten

theorem isList_nil {α : Type} {P : α → List Bool → Prop} {bits : List Bool} :
    IsList P [] bits ↔ bits = [] := by simp [IsList]

theorem isList_cons {α : Type} {P : α → List Bool → Prop} {x : α} {xs : List α}
    {bits : List Bool} :
    IsList P (x :: xs) bits ↔
      ∃ front back, P x front ∧ IsList P xs back ∧ bits = front ++ back := by
  constructor
  · rintro ⟨parts, hparts, rfl⟩
    cases hparts with
    | cons hx hxs => exact ⟨_, _, hx, ⟨_, hxs, rfl⟩, rfl⟩
  · rintro ⟨front, back, hx, ⟨parts, hxs, rfl⟩, rfl⟩
    exact ⟨front :: parts, .cons hx hxs, rfl⟩

def IsDefinition (layout : Layout) (bits : List Bool) : Prop :=
  ∃ count operands, IsVbr operandCountChunk layout.length count ∧
    IsList IsOperand layout operands ∧ bits = count ++ operands

def IsRecord (code : UInt64) (operands : List UInt64) (bits : List Bool) : Prop :=
  ∃ number count values, IsVbr recordChunk code.toNat number ∧
    IsVbr recordChunk operands.length count ∧
    IsList (fun v ↦ IsVbr recordChunk v.toNat) operands values ∧ bits = number ++ count ++ values

inductive IsLeaf (width : Nat) : Item → List Bool → Prop
  | definition {layout : Layout} {marker bits : List Bool} :
      IsField width defineAbbrev marker → IsDefinition layout bits →
      IsLeaf width (.definition layout) (marker ++ bits)
  | record {code : UInt64} {operands : List UInt64} {marker bits : List Bool} :
      IsField width unabbrevRecord marker → IsRecord code operands bits →
      IsLeaf width (.record code operands) (marker ++ bits)

theorem IsLeaf.depth_eq {width : Nat} {item : Item} {bits : List Bool}
    (h : IsLeaf width item bits) : item.depth = 0 := by cases h <;> rfl

/-- A block header behind its marker: the id, the width of the markers in the body, padding and the
length word. -/
def IsHeader (pos : Nat) (h : Header) (bits : List Bool) : Prop :=
  ∃ id width padding, IsVbr blockIdChunk h.id.toNat id ∧
    IsVbr blockWidthChunk h.abbrevWidth.toNat width ∧
    0 < h.abbrevWidth.toNat ∧ h.abbrevWidth.toNat ≤ maxAbbrevWidth ∧
    IsPadding (pos + id.length + width.length) padding ∧
    bits = id ++ width ++ padding ++ bitsOf 32 h.lengthWords.toNat

theorem IsHeader.aligned {pos : Nat} {h : Header} {bits : List Bool} (hh : IsHeader pos h bits) :
    (pos + bits.length) % 32 = 0 := by
  obtain ⟨id, width, padding, -, -, -, -, ⟨-, hend⟩, rfl⟩ := hh
  simp only [List.length_append, length_bitsOf]
  omega

def IsEnd (width pos : Nat) (bits : List Bool) : Prop :=
  ∃ marker padding, IsField width endBlock marker ∧ IsPadding (pos + marker.length) padding ∧
    bits = marker ++ padding

theorem IsEnd.aligned {width pos : Nat} {bits : List Bool} (h : IsEnd width pos bits) :
    (pos + bits.length) % 32 = 0 := by
  obtain ⟨marker, padding, -, ⟨-, hend⟩, rfl⟩ := h
  rwa [List.length_append, ← Nat.add_assoc]

/-- Items one after the other, the first at a given position, in a block whose markers have `width`
bits. The length word of a block in them counts the words from behind itself to the end of the
block. -/
inductive IsItems : (width pos : Nat) → List Item → List Bool → Prop
  | nil (width pos : Nat) : IsItems width pos [] []
  | leaf {width pos : Nat} {item : Item} {items : List Item} {bits rest : List Bool} :
      IsLeaf width item bits → IsItems width (pos + bits.length) items rest →
      IsItems width pos (item :: items) (bits ++ rest)
  | block {width pos : Nat} {h : Header} {body items : List Item}
      {marker header bits ending rest : List Bool} :
      IsField width enterSubblock marker → IsHeader (pos + marker.length) h header →
      IsItems h.abbrevWidth.toNat (pos + (marker ++ header).length) body bits →
      IsEnd h.abbrevWidth.toNat (pos + (marker ++ header ++ bits).length) ending →
      (bits ++ ending).length = 32 * h.lengthWords.toNat →
      IsItems width (pos + (marker ++ header ++ bits ++ ending).length) items rest →
      IsItems width pos (.block h body :: items) (marker ++ header ++ bits ++ ending ++ rest)

theorem IsItems.aligned {width pos : Nat} {items : List Item} {bits : List Bool}
    (h : IsItems width pos items bits) (hblocks : ∀ item ∈ items, item.isBlock = true)
    (hpos : pos % 32 = 0) : (pos + bits.length) % 32 = 0 := by
  induction h with
  | nil => exact hpos
  | leaf hleaf => cases hleaf <;> cases hblocks _ List.mem_cons_self
  | block _ _ _ hending _ _ _ ih =>
    have hend := hending.aligned
    rw [Nat.add_assoc, ← List.length_append] at hend
    rw [List.length_append, ← Nat.add_assoc]
    exact ih (fun item hitem ↦ hblocks item (List.mem_cons_of_mem _ hitem)) hend

/-- A block behind its marker. -/
def IsBlock (pos : Nat) (h : Header) (body : List Item) (bits : List Bool) : Prop :=
  ∃ header inner ending, IsHeader pos h header ∧
    IsItems h.abbrevWidth.toNat (pos + header.length) body inner ∧
    IsEnd h.abbrevWidth.toNat (pos + (header ++ inner).length) ending ∧
    (inner ++ ending).length = 32 * h.lengthWords.toNat ∧ bits = header ++ inner ++ ending

theorem IsItems.cons_block {width pos : Nat} {h : Header} {body items : List Item}
    {marker block rest : List Bool} (hmarker : IsField width enterSubblock marker)
    (hblock : IsBlock (pos + marker.length) h body block)
    (hrest : IsItems width (pos + (marker ++ block).length) items rest) :
    IsItems width pos (.block h body :: items) (marker ++ block ++ rest) := by
  obtain ⟨header, inner, ending, hheader, hinner, hending, hlen, rfl⟩ := hblock
  have hitems := IsItems.block hmarker hheader (by simpa [Nat.add_assoc] using hinner)
    (by simpa [Nat.add_assoc] using hending) hlen (by simpa [Nat.add_assoc] using hrest)
  simpa using hitems

end Wire

/-- The streams that bytes stand for: the magic bytes, the blocks in order and nothing else. -/
def Stream.IsWritten (s : Stream) (bytes : ByteArray) : Prop :=
  s.depth ≤ Format.maxDepth ∧ ∃ body : ByteArray, bytes = Format.magic ++ body ∧
    Wire.IsItems Format.topLevelWidth 0 s.items (allBits body)

end BlockStream
