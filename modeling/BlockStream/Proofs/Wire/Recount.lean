import BlockStream.Proofs.Wire.Canonical

namespace BlockStream

mutual

/-- An item with its length words counted anew, those of inner blocks first. -/
def Item.recount : Item → Item
  | .block h items =>
    let body := Item.recountAll items
    .block { h with lengthWords := (Wire.bodyWords h.abbrevWidth.toNat body).toUInt32 } body
  | .record code operands => .record code operands
  | .definition layout => .definition layout
termination_by structural item => item

def Item.recountAll : List Item → List Item
  | [] => []
  | item :: rest => item.recount :: Item.recountAll rest
termination_by structural items => items

end

def Block.recount (b : Block) : Block :=
  let body := Item.recountAll b.items
  ⟨{ b.header with lengthWords := (Wire.bodyWords b.header.abbrevWidth.toNat body).toUInt32 }, body⟩

def Stream.recount (S : Stream) : Stream := ⟨S.blocks.map Block.recount⟩

theorem Stream.items_recount (S : Stream) : S.recount.items = Item.recountAll S.items := by
  obtain ⟨blocks⟩ := S
  induction blocks with
  | nil => rfl
  | cons b blocks ih =>
    refine congrArg (Item.recount b.toItem :: ·) ?_
    exact ih

/-- The first items are the second ones, but for length words that have become smaller. -/
inductive Shortened : List Item → List Item → Prop
  | nil : Shortened [] []
  | leaf {item : Item} {xs ys : List Item} :
      item.isBlock = false → Shortened xs ys → Shortened (item :: xs) (item :: ys)
  | block {g h : Header} {inner body xs ys : List Item} :
      g.id = h.id → g.abbrevWidth = h.abbrevWidth → g.lengthWords ≤ h.lengthWords →
      Shortened inner body → Shortened xs ys →
      Shortened (.block g inner :: xs) (.block h body :: ys)

mutual

/-- Whether a session can write an item: its blocks are of known kinds and have the widths of
these, and the codes of its records fit in 32 bits. -/
def Item.Writable : Item → Prop
  | .block h items =>
    (∃ kind, BlockKind.ofId? h.id = some kind ∧ h.abbrevWidth = kind.abbrevWidth) ∧
      Item.AllWritable items
  | .record code _ => code.toNat < UInt32.size
  | .definition _ => True
termination_by structural item => item

def Item.AllWritable : List Item → Prop
  | [] => True
  | item :: rest => item.Writable ∧ Item.AllWritable rest
termination_by structural items => items

end

namespace Wire

open Format

section Leaves

theorem length_fields_le {width value : Nat} {bits : List Bool} (hw : 2 ≤ width)
    (h : IsVbr width value bits) :
    ((Vbr.fields width value).flatMap Field.bits).length ≤ bits.length := by
  obtain ⟨-, chain, hchain, -, rfl, rfl⟩ := h
  have hfewest := Vbr.length_chunks_le (by omega) hchain
  rw [Vbr.flatMap_fields, length_flatMap_bitsOf, length_flatMap_bitsOf]
  exact Nat.mul_le_mul_right width hfewest

theorem length_operand_le {op : Operand} {bits : List Bool} (h : IsOperand op bits) :
    ((operand op).flatMap Field.bits).length ≤ bits.length := by
  cases h with
  | literal hvalue =>
    have hle := length_fields_le (by decide) hvalue
    simp only [operand, List.flatMap_cons, List.length_append, List.length_cons, Field.bits,
      length_bitsOf]
    omega
  | fixed hwidth =>
    have hle := length_fields_le (by decide) hwidth
    simp only [operand_fixed, List.flatMap_cons, List.length_append, List.length_cons, Field.bits,
      length_bitsOf, List.cons_append]
    omega
  | vbr hwidth =>
    have hle := length_fields_le (by decide) hwidth
    simp only [operand_vbr, List.flatMap_cons, List.length_append, List.length_cons, Field.bits,
      length_bitsOf, List.cons_append]
    omega
  | array | char6 | blob => exact Nat.le_refl _

theorem length_flatMap_le {α : Type} {P : α → List Bool → Prop} {xs : List α} {bits : List Bool}
    (h : IsList P xs bits) {f : α → List Bool}
    (hf : ∀ x bits, P x bits → (f x).length ≤ bits.length) :
    (xs.flatMap f).length ≤ bits.length := by
  induction xs generalizing bits with
  | nil => exact Nat.zero_le _
  | cons x xs ih =>
    obtain ⟨front, back, hx, hxs, rfl⟩ := isList_cons.mp h
    have hfront := hf _ _ hx
    have hback := ih hxs
    rw [List.flatMap_cons, List.length_append, List.length_append]
    omega

theorem length_leaf_le {width : Nat} {item : Item} {bits : List Bool} (h : IsLeaf width item bits)
    (pos : Nat) : (ofItem width pos item).length ≤ bits.length := by
  cases h with
  | definition hmarker hbits =>
    obtain ⟨count, operands, hcount, hoperands, rfl⟩ := hbits
    have hcount := length_fields_le (by decide) hcount
    have hoperands := length_flatMap_le hoperands fun _ _ ↦ length_operand_le
    have hmarker := hmarker.length_eq
    simp only [ofItem, definition, List.flatMap_cons, List.flatMap_append, List.flatMap_assoc,
      List.length_append, Field.bits, length_bitsOf] at hcount hoperands ⊢
    omega
  | record hmarker hbits =>
    obtain ⟨number, count, values, hnumber, hcount, hvalues, rfl⟩ := hbits
    have hnumber := length_fields_le (by decide) hnumber
    have hcount := length_fields_le (by decide) hcount
    have hvalues := length_flatMap_le hvalues fun _ _ ↦ length_fields_le (by decide)
    have hmarker := hmarker.length_eq
    simp only [ofItem, record, List.flatMap_cons, List.flatMap_append, List.flatMap_assoc,
      List.length_append, Field.bits, length_bitsOf] at hnumber hcount hvalues ⊢
    omega

theorem IsLeaf.recount_eq {width : Nat} {item : Item} {bits : List Bool}
    (h : IsLeaf width item bits) : item.recount = item := by cases h <;> rfl

end Leaves

section Positions

theorem opening_le {width pos p : Nat} {h : Header} {marker header : List Bool}
    (hmarker : IsField width enterSubblock marker)
    (hheader : IsHeader (pos + marker.length) h header) (hp : p ≤ pos) (words : Nat) :
    p + (opening p width h.id h.abbrevWidth ++ bitsOf 32 words).length ≤
      pos + (marker ++ header).length := by
  obtain ⟨id, blockWidth, filling, hid, hblockWidth, -, -, ⟨-, hend⟩, rfl⟩ := hheader
  have hid := length_fields_le (by decide) hid
  have hblockWidth := length_fields_le (by decide) hblockWidth
  have hmarker := hmarker.length_eq
  have haligned := opening_aligned p width h.id h.abbrevWidth
  have hfields : ((enter width h.id h.abbrevWidth).flatMap Field.bits).length =
      width + ((Vbr.fields blockIdChunk h.id.toNat).flatMap Field.bits).length +
        ((Vbr.fields blockWidthChunk h.abbrevWidth.toNat).flatMap Field.bits).length := by
    simp only [enter, List.flatMap_cons, List.flatMap_append, List.length_append, Field.bits,
      length_bitsOf, Nat.add_assoc]
  have hpadding := length_padding_lt
    (p + ((enter width h.id h.abbrevWidth).flatMap Field.bits).length)
  simp only [opening, List.length_append, length_bitsOf] at haligned ⊢
  omega

theorem closing_le {width pos p : Nat} {ending : List Bool} (h : IsEnd width pos ending)
    (hp : p ≤ pos) : p + (closing p width).length ≤ pos + ending.length := by
  obtain ⟨marker, filling, hmarker, ⟨-, hend⟩, rfl⟩ := h
  have hmarker := hmarker.length_eq
  have haligned := closing_aligned p width
  have hfields : ((exit width).flatMap Field.bits).length = width := by
    simp [exit, Field.bits, length_bitsOf]
  have hpadding := length_padding_lt (p + ((exit width).flatMap Field.bits).length)
  simp only [closing, List.length_append] at haligned ⊢
  omega

theorem ofItems_recountAll_le {width pos : Nat} {items : List Item} {bits : List Bool}
    (h : IsItems width pos items bits) {p : Nat} (hp : p ≤ pos) :
    p + (ofItems width p (Item.recountAll items)).length ≤ pos + bits.length := by
  induction h generalizing p with
  | nil => exact Nat.add_le_add_right hp _
  | @leaf width pos item items bits rest hleaf _ ih =>
    have hitem := length_leaf_le hleaf p
    have hrest := ih (Nat.add_le_add hp hitem)
    rw [Item.recountAll, hleaf.recount_eq, ofItems, List.length_append, List.length_append]
    omega
  | @block width pos h body items marker header bits ending rest hmarker hheader _ hending _ _
      ihBody ihRest =>
    have hfront := opening_le hmarker hheader hp
      (bodyWords h.abbrevWidth.toNat (Item.recountAll body)).toUInt32.toNat
    have hinner := ihBody hfront
    rw [Nat.add_assoc, Nat.add_assoc, ← List.length_append, ← List.length_append] at hinner
    have hitem := closing_le hending hinner
    rw [Nat.add_assoc, Nat.add_assoc, ← List.length_append, ← List.length_append] at hitem
    have hrest := ihRest hitem
    rw [Nat.add_assoc, Nat.add_assoc, ← List.length_append, ← List.length_append] at hrest
    exact hrest

theorem bodyWords_recountAll_le {width pos words : Nat} {body : List Item} {bits ending : List Bool}
    (hbody : IsItems width pos body bits) (hending : IsEnd width (pos + bits.length) ending)
    (hpos : pos % 32 = 0) (hlen : (bits ++ ending).length = 32 * words) :
    bodyWords width (Item.recountAll body) ≤ words := by
  have hinner := ofItems_recountAll_le hbody (Nat.le_refl pos)
  have hclosing := closing_le hending hinner
  have hshift := ofItems_congr (show 0 % 32 = pos % 32 from hpos.symm) width (Item.recountAll body)
  have hcount := length_body width (Item.recountAll body)
  rw [hshift] at hcount
  have hsame : closing (ofItems width pos (Item.recountAll body)).length width =
      closing (pos + (ofItems width pos (Item.recountAll body)).length) width :=
    closing_congr (by omega) width
  rw [hsame, List.length_append] at hcount
  rw [List.length_append] at hlen
  omega

end Positions

section Items

theorem IsLeaf.isBlock_eq {width : Nat} {item : Item} {bits : List Bool}
    (h : IsLeaf width item bits) : item.isBlock = false := by cases h <;> rfl

theorem not_mem_of_isList {layout : Layout} {bits : List Bool} (h : IsList IsOperand layout bits) :
    .typeIndex ∉ layout := by
  induction layout generalizing bits with
  | nil => exact List.not_mem_nil
  | cons op layout ih =>
    obtain ⟨front, back, hop, hlayout, -⟩ := isList_cons.mp h
    rw [List.mem_cons]
    rintro (rfl | hmem)
    · cases hop
    · exact ih hlayout hmem

theorem regular_of_isLeaf {width : Nat} {item : Item} {bits : List Bool}
    (h : IsLeaf width item bits) : Regular item := by
  cases h with
  | definition _ hbits =>
    obtain ⟨_, _, -, hlayout, -⟩ := hbits
    exact not_mem_of_isList hlayout
  | record => trivial

theorem toNat_recounted {pos : Nat} {h : Header} {body : List Item}
    {marker header bits ending : List Bool} (hheader : IsHeader (pos + marker.length) h header)
    (hbody : IsItems h.abbrevWidth.toNat (pos + (marker ++ header).length) body bits)
    (hending : IsEnd h.abbrevWidth.toNat (pos + (marker ++ header ++ bits).length) ending)
    (hlen : (bits ++ ending).length = 32 * h.lengthWords.toNat) :
    (bodyWords h.abbrevWidth.toNat (Item.recountAll body)).toUInt32.toNat =
        bodyWords h.abbrevWidth.toNat (Item.recountAll body) ∧
      (bodyWords h.abbrevWidth.toNat (Item.recountAll body)).toUInt32 ≤ h.lengthWords := by
  have haligned := hheader.aligned
  rw [Nat.add_assoc, ← List.length_append] at haligned
  rw [List.length_append, ← Nat.add_assoc] at hending
  have hle := bodyWords_recountAll_le hbody hending haligned hlen
  have hword := UInt32.toNat_ofNat_of_lt' (Nat.lt_of_le_of_lt hle h.lengthWords.toNat_lt)
  refine ⟨hword, ?_⟩
  rw [UInt32.le_iff_toNat_le, Nat.toUInt32_eq, hword]
  exact hle

theorem shortened_recountAll {width pos : Nat} {items : List Item} {bits : List Bool}
    (h : IsItems width pos items bits) : Shortened (Item.recountAll items) items := by
  induction h with
  | nil => exact .nil
  | leaf hleaf _ ih =>
    rw [Item.recountAll, hleaf.recount_eq]
    exact .leaf hleaf.isBlock_eq ih
  | block _ hheader hbody hending hlen _ ihBody ihRest =>
    exact .block rfl rfl (toNat_recounted hheader hbody hending hlen).2 ihBody ihRest

theorem allRegular_recountAll {width pos : Nat} {items : List Item} {bits : List Bool}
    (h : IsItems width pos items bits) (hwritable : Item.AllWritable items) :
    AllRegular (Item.recountAll items) := by
  induction h with
  | nil => trivial
  | leaf hleaf _ ih =>
    rw [Item.recountAll, hleaf.recount_eq]
    exact ⟨regular_of_isLeaf hleaf, ih hwritable.2⟩
  | block _ hheader hbody hending hlen _ ihBody ihRest =>
    obtain ⟨⟨⟨kind, -, hwidth⟩, hinner⟩, hrest⟩ := hwritable
    obtain ⟨hword, -⟩ := toNat_recounted hheader hbody hending hlen
    obtain ⟨_, _, _, _, _, -, hle, _, _⟩ := hheader
    exact ⟨⟨hwidth ▸ kind.two_le_abbrevWidth, hle, hword, ihBody hinner⟩, ihRest hrest⟩

mutual

theorem recount_of_regular : (item : Item) → Regular item → item.recount = item
  | .block h body, ⟨_, _, hwords, hbody⟩ => by
    rw [Item.recount, recountAll_of_regular body hbody, ← hwords, Nat.toUInt32_eq,
      UInt32.ofNat_toNat]
  | .record .., _ => rfl
  | .definition _, _ => rfl
termination_by structural item => item

/-- Items that are canonical already stay as they are. -/
theorem recountAll_of_regular : (items : List Item) → AllRegular items →
    Item.recountAll items = items
  | [], _ => rfl
  | item :: rest, ⟨hitem, hrest⟩ => by
    rw [Item.recountAll, recount_of_regular item hitem, recountAll_of_regular rest hrest]
termination_by structural items => items

end

theorem allWritable_of_shortened {xs ys : List Item} (h : Shortened xs ys)
    (hwritable : Item.AllWritable ys) : Item.AllWritable xs := by
  induction h with
  | nil => trivial
  | leaf _ _ ih => exact ⟨hwritable.1, ih hwritable.2⟩
  | block hid hwidth _ _ _ ihBody ihRest =>
    obtain ⟨⟨hkind, hinner⟩, hrest⟩ := hwritable
    exact ⟨⟨by rwa [hid, hwidth], ihBody hinner⟩, ihRest hrest⟩

theorem depthAll_of_shortened {xs ys : List Item} (h : Shortened xs ys) :
    Item.depthAll xs = Item.depthAll ys := by
  induction h with
  | nil => rfl
  | leaf _ _ ih => rw [Item.depthAll, Item.depthAll, ih]
  | block _ _ _ _ _ ihBody ihRest =>
    rw [Item.depthAll, Item.depthAll, Item.depth, Item.depth, ihBody, ihRest]

end Items

end Wire

end BlockStream
