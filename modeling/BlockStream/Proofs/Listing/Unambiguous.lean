import BlockStream.Proofs.Listing.Numbering
import BlockStream.Proofs.Listing.Texts

namespace BlockStream

def Line.text (l : Line) : List Char := l.spans.flatMap fun s ↦ s.text.toList

def Line.shape (l : Line) : Nat × List Char := (l.depth, l.text)

/-- A line has no line break in it, and no space in front but its indentation. -/
structure Line.Clear (l : Line) : Prop where
  unbroken : '\n' ∉ l.text
  indented : l.text.head? ≠ some ' '

section Rendering

theorem toList_foldl_append {α : Type} (f : α → String) (xs : List α) (front : String) :
    (xs.foldl (fun text x ↦ text ++ f x) front).toList =
      front.toList ++ xs.flatMap fun x ↦ (f x).toList := by
  induction xs generalizing front with
  | nil => simp
  | cons x xs ih => simp [ih]

theorem Span.render_plain (s : Span) : s.render .plain = s.text := by
  obtain ⟨_ | _ | _ | _ | _, text⟩ := s <;> simp [render, Palette.plain, Palette.start]

theorem Line.render_plain (l : Line) :
    (l.render .plain).toList = List.replicate (2 * l.depth) ' ' ++ l.text ++ ['\n'] := by
  simp [render, toList_foldl_append, Span.render_plain, text]

/-- Lines that are written one behind the other can be told apart. -/
theorem map_shape_eq {ls ms : List Line} (hls : ∀ l ∈ ls, l.Clear) (hms : ∀ m ∈ ms, m.Clear)
    (h : (ls.flatMap fun l ↦ (l.render .plain).toList) =
      ms.flatMap fun m ↦ (m.render .plain).toList) : ls.map Line.shape = ms.map Line.shape := by
  induction ls generalizing ms with
  | nil =>
    cases ms with
    | nil => rfl
    | cons m ms => simp [Line.render_plain] at h
  | cons l ls ih =>
    cases ms with
    | nil => simp [Line.render_plain] at h
    | cons m ms =>
      obtain ⟨hl, hls⟩ := List.forall_mem_cons.mp hls
      obtain ⟨hm, hms⟩ := List.forall_mem_cons.mp hms
      have hbreak (k : Line) (hk : k.Clear) :
          '\n' ∉ List.replicate (2 * k.depth) ' ' ++ k.text := by
        simp [hk.unbroken]
      simp only [List.flatMap_cons, Line.render_plain, List.append_assoc,
        List.singleton_append] at h
      rw [← List.append_assoc, ← List.append_assoc (List.replicate (2 * m.depth) ' ')] at h
      obtain ⟨hline, hrest⟩ := eq_of_cut (hbreak l hl) (hbreak m hm) h
      obtain ⟨hdepth, htext⟩ := eq_of_replicate hl.indented hm.indented hline
      have hshape : l.shape = m.shape :=
        Prod.ext (Nat.eq_of_mul_eq_mul_left Nat.two_pos hdepth) htext
      rw [List.map_cons, List.map_cons, hshape, ih hls hms]
      simpa [Line.render_plain] using hrest

end Rendering

namespace Listing

def headerDetail (h : Header) : String :=
  "<id " ++ h.id.toNat.repr ++ ", width " ++ h.abbrevWidth.toNat.repr ++ ", len " ++
    h.lengthWords.toNat.repr ++ ">"

theorem text_headerLine (depth : Nat) (h : Header) :
    (headerLine depth h).text = (blockName h.id).toList ++ ' ' :: (headerDetail h).toList := by
  change Line.text ⟨depth, [_, _, ⟨some .detail, headerDetail h⟩]⟩ = _
  simp [Line.text]

theorem text_definitionLine (depth number : Nat) (layout : Layout) :
    (definitionLine depth number layout).text = "abbrev".toList ++ ' ' :: '#' ::
      (number.repr.toList ++ ' ' :: (commaSeparated (layout.map Operand.text)).toList) := by
  change Line.text ⟨depth, [⟨some .definition, "abbrev #" ++ number.repr⟩, _]⟩ = _
  simp [Line.text]

def recordWord : Option BlockInfoCode → String
  | some info => info.name
  | none => "record"

def operandsText : BlockInfoCode → List UInt64 → String
  | .setBid, [id] => targetText id
  | _, operands => numbers operands

def recordDetail (code : UInt64) (operands : List UInt64) : Option BlockInfoCode → List Char
  | some info => (operandsText info operands).toList
  | none => code.toNat.repr.toList ++ ' ' :: (numbers operands).toList

theorem text_recordLine (inInfo : Bool) (depth : Nat) (code : UInt64) (operands : List UInt64) :
    (recordLine inInfo depth code operands).text =
      (recordWord (if inInfo then infoCode? code else none)).toList ++
        ' ' :: recordDetail code operands (if inInfo then infoCode? code else none) := by
  unfold recordLine
  generalize (if inInfo then infoCode? code else none) = info
  split
  · simp [Line.text, recordWord, recordDetail, operandsText]
  · rename_i _ info hother
    have hnumbers : operandsText info operands = numbers operands := by
      unfold operandsText
      split
      · exact absurd rfl (hother _ rfl)
      · rfl
    simp [Line.text, recordWord, recordDetail, hnumbers]
  · change Line.text ⟨depth, [⟨some .record, "record " ++ code.toNat.repr⟩, _]⟩ = _
    simp [Line.text, recordWord, recordDetail]

section Heads

theorem headerDetail_injective : headerDetail.Injective := by
  rintro ⟨id, width, words⟩ ⟨id', width', words'⟩ h
  have hchars := congrArg String.toList h
  simp [headerDetail] at hchars
  have hcomma := not_mem_digits (c := ',') (by decide)
  obtain ⟨hid, hchars⟩ := eq_of_cut (hcomma _) (hcomma _) hchars
  simp at hchars
  obtain ⟨hwidth, hchars⟩ := eq_of_cut (hcomma _) (hcomma _) hchars
  simp at hchars
  rw [UInt32.toNat_inj.mp (digits_inj hid), UInt32.toNat_inj.mp (digits_inj hwidth),
    UInt32.toNat_inj.mp (digits_inj hchars)]

theorem infoCode?_eq_some {code : UInt64} {info : BlockInfoCode} (h : infoCode? code = some info) :
    code = info.code.toUInt64 := by
  unfold infoCode? at h
  split at h
  · rename_i hlt
    have hcode : info.code = code.toUInt32 := by simpa using List.find?_some h
    apply UInt64.toNat_inj.mp
    rw [hcode, UInt32.toNat_toUInt64, UInt64.toNat_toUInt32]
    exact (Nat.mod_eq_of_lt hlt).symm
  · cases h

theorem targetText_injective : targetText.Injective := by
  intro x y h
  unfold targetText at h
  split at h
  · rename_i hx
    split at h
    · rename_i hy
      have hid := congrArg UInt32.toNat (blockName_injective h)
      rw [UInt64.toNat_toUInt32, UInt64.toNat_toUInt32, Nat.mod_eq_of_lt hx,
        Nat.mod_eq_of_lt hy] at hid
      exact UInt64.toNat_inj.mp hid
    · exact absurd h (blockName_ne_decimal _ _)
  · split at h
    · exact absurd h.symm (blockName_ne_decimal _ _)
    · exact UInt64.toNat_inj.mp (Nat.repr_inj.mp h)

theorem targetText_ne_numbers (id : UInt64) (operands : List UInt64) :
    targetText id ≠ numbers operands := by
  intro h
  have hhead : (targetText id).toList.head? = some '[' := by
    rw [h, numbers, toList_commaSeparated]
    rfl
  unfold targetText at hhead
  split at hhead
  · exact head?_blockName_ne _ hhead
  · refine not_mem_digits (c := '[') (by decide) id.toNat (List.mem_of_head? ?_)
    simpa using hhead

theorem operandsText_injective (info : BlockInfoCode) : (operandsText info).Injective := by
  intro xs ys h
  unfold operandsText at h
  split at h
  · split at h
    · rw [targetText_injective h]
    · exact absurd h (targetText_ne_numbers _ _)
  · split at h
    · exact absurd h.symm (targetText_ne_numbers _ _)
    · exact numbers_injective h

theorem recordDetail_injective {info : Option BlockInfoCode} {code code' : UInt64}
    {operands operands' : List UInt64} (hcode : ∀ i ∈ info, code = i.code.toUInt64)
    (hcode' : ∀ i ∈ info, code' = i.code.toUInt64)
    (h : recordDetail code operands info = recordDetail code' operands' info) :
    code = code' ∧ operands = operands' := by
  cases info with
  | some i =>
    refine ⟨(hcode i rfl).trans (hcode' i rfl).symm, ?_⟩
    exact operandsText_injective i (String.toList_inj.mp h)
  | none =>
    have hspace := not_mem_digits (c := ' ') (by decide)
    simp only [recordDetail, Nat.repr_eq_ofList_toDigits, String.toList_ofList] at h
    obtain ⟨hdigits, hnumbers⟩ := eq_of_cut (hspace _) (hspace _) h
    exact ⟨UInt64.toNat_inj.mp (digits_inj hdigits),
      numbers_injective (String.toList_inj.mp hnumbers)⟩

theorem recordWord_injective : recordWord.Injective := by
  rintro (_ | i) (_ | j) h
  · rfl
  · cases j <;> exact absurd h (by decide)
  · cases i <;> exact absurd h (by decide)
  · rw [BlockInfoCode.name_injective h]

theorem recordWord_mem (info : Option BlockInfoCode) : recordWord info ∈ reserved.tail := by
  rcases info with _ | _ | _ | _ <;> decide

end Heads

section Lines

/-- The line of an item itself, without those of the items in it. -/
def firstLine (inInfo : Bool) (depth number : Nat) : Item → Line
  | .block h _ => headerLine depth h
  | .record code operands => recordLine inInfo depth code operands
  | .definition layout => definitionLine depth number layout

def firstWord (inInfo : Bool) : Item → String
  | .block h _ => blockName h.id
  | .record code _ => recordWord (if inInfo then infoCode? code else none)
  | .definition _ => "abbrev"

def firstDetail (inInfo : Bool) (number : Nat) : Item → List Char
  | .block h _ => (headerDetail h).toList
  | .record code operands =>
    recordDetail code operands (if inInfo then infoCode? code else none)
  | .definition layout =>
    '#' :: (number.repr.toList ++ ' ' :: (commaSeparated (layout.map Operand.text)).toList)

/-- The item without the items in it. -/
def outline : Item → Item
  | .block h _ => .block h []
  | item => item

variable {inInfo : Bool} {depth number : Nat}

theorem text_firstLine (item : Item) : (firstLine inInfo depth number item).text =
    (firstWord inInfo item).toList ++ ' ' :: firstDetail inInfo number item := by
  cases item with
  | block h _ => exact text_headerLine depth h
  | record code operands => exact text_recordLine inInfo depth code operands
  | definition layout => exact text_definitionLine depth number layout

theorem depth_firstLine (item : Item) : (firstLine inInfo depth number item).depth = depth := by
  cases item with
  | block | definition => rfl
  | record code operands =>
    unfold firstLine recordLine
    dsimp only
    split <;> rfl

theorem chars_firstWord (inInfo : Bool) (item : Item) : (firstWord inInfo item).toList ≠ [] ∧
    ' ' ∉ (firstWord inInfo item).toList ∧
    ∀ c ∈ (firstWord inInfo item).toList, isGraphic c = true := by
  have hreserved : ∀ word ∈ reserved, word.toList ≠ [] ∧ ' ' ∉ word.toList ∧
      ∀ c ∈ word.toList, isGraphic c = true := by
    simp only [← List.all_eq_true]
    decide
  cases item with
  | block h _ =>
    obtain ⟨c, rest, hname, -⟩ := exists_cons_of_blockName h.id
    exact ⟨by simp [firstWord, hname], space_not_mem_blockName h.id, isGraphic_blockName h.id⟩
  | record code operands => exact hreserved _ (List.mem_of_mem_tail (recordWord_mem _))
  | definition layout => exact hreserved "abbrev" (by decide)

theorem isGraphic_numbers (operands : List UInt64) :
    ∀ c ∈ (numbers operands).toList, isGraphic c = true := by
  refine isGraphic_commaSeparated ?_
  rw [List.forall_mem_map]
  intro v _
  simpa using isGraphic_digits v.toNat

theorem isGraphic_targetText (id : UInt64) : ∀ c ∈ (targetText id).toList, isGraphic c = true := by
  unfold targetText
  split
  · exact isGraphic_blockName _
  · simpa using isGraphic_digits id.toNat

theorem isGraphic_recordDetail (code : UInt64) (operands : List UInt64)
    (info : Option BlockInfoCode) :
    ∀ c ∈ recordDetail code operands info, isGraphic c = true := by
  cases info with
  | none =>
    rw [recordDetail, Nat.toList_repr, List.forall_mem_append, List.forall_mem_cons]
    exact ⟨isGraphic_digits _, by decide, isGraphic_numbers operands⟩
  | some info =>
    unfold recordDetail operandsText
    dsimp only
    split
    · exact isGraphic_targetText _
    · exact isGraphic_numbers _

theorem isGraphic_firstDetail (item : Item) :
    ∀ c ∈ firstDetail inInfo number item, isGraphic c = true := by
  cases item with
  | block h _ =>
    simp only [firstDetail, headerDetail, String.toList_append, Nat.toList_repr,
      List.forall_mem_append]
    exact ⟨⟨⟨⟨⟨⟨isGraphic_of_all rfl, isGraphic_digits _⟩, isGraphic_of_all rfl⟩,
      isGraphic_digits _⟩, isGraphic_of_all rfl⟩, isGraphic_digits _⟩, isGraphic_of_all rfl⟩
  | record code operands => exact isGraphic_recordDetail code operands _
  | definition layout =>
    have htexts : ∀ c ∈ (commaSeparated (layout.map Operand.text)).toList, isGraphic c = true :=
      isGraphic_commaSeparated (List.forall_mem_map.mpr fun x _ ↦ x.isGraphic_text)
    rw [firstDetail, List.forall_mem_cons, List.forall_mem_append, List.forall_mem_cons,
      Nat.toList_repr]
    exact ⟨by decide, isGraphic_digits _, by decide, htexts⟩

theorem isGraphic_firstLine (item : Item) :
    ∀ c ∈ (firstLine inInfo depth number item).text, isGraphic c = true := by
  rw [text_firstLine, List.forall_mem_append, List.forall_mem_cons]
  exact ⟨(chars_firstWord inInfo item).2.2, by decide, isGraphic_firstDetail item⟩

theorem clear_firstLine (item : Item) : (firstLine inInfo depth number item).Clear := by
  obtain ⟨hne, hspace, -⟩ := chars_firstWord inInfo item
  constructor
  · exact not_mem_of_isGraphic (isGraphic_firstLine item) (by decide)
  · rw [text_firstLine]
    obtain ⟨c, rest, hword⟩ := List.exists_cons_of_ne_nil hne
    rw [hword] at hspace ⊢
    intro hhead
    cases hhead
    exact hspace List.mem_cons_self

theorem code_of_info {code : UInt64} {info : BlockInfoCode}
    (h : info ∈ if inInfo then infoCode? code else none) : code = info.code.toUInt64 := by
  cases inInfo with
  | false => cases h
  | true => exact infoCode?_eq_some h

/-- The line of an item tells all of it but the items in it. -/
theorem outline_of_text {depth' number' : Nat} {x y : Item}
    (h : (firstLine inInfo depth number x).text = (firstLine inInfo depth' number' y).text) :
    outline x = outline y := by
  rw [text_firstLine, text_firstLine] at h
  obtain ⟨hword, hdetail⟩ :=
    eq_of_cut (chars_firstWord inInfo x).2.1 (chars_firstWord inInfo y).2.1 h
  replace hword := String.toList_inj.mp hword
  have hname (id : UInt32) (word : String) (hmem : word ∈ reserved) : blockName id ≠ word :=
    fun heq ↦ blockName_not_mem_reserved id (heq ▸ hmem)
  have hrecord (info : Option BlockInfoCode) : recordWord info ∈ reserved :=
    List.mem_of_mem_tail (recordWord_mem info)
  have habbrev (info : Option BlockInfoCode) : recordWord info ≠ "abbrev" := fun heq ↦
    absurd (heq ▸ recordWord_mem info) (by decide)
  cases x with
  | block g _ =>
    cases y with
    | block g' _ => rw [outline, outline, headerDetail_injective (String.toList_inj.mp hdetail)]
    | record code operands => exact absurd hword (hname g.id _ (hrecord _))
    | definition layout => exact absurd hword (hname g.id "abbrev" (by decide))
  | record code operands =>
    cases y with
    | block g' _ => exact absurd hword.symm (hname g'.id _ (hrecord _))
    | record code' operands' =>
      have hinfo := recordWord_injective hword
      have hcode : ∀ i ∈ if inInfo then infoCode? code else none, code = i.code.toUInt64 :=
        fun _ ↦ code_of_info
      rw [firstDetail, firstDetail, hinfo] at hdetail
      rw [hinfo] at hcode
      obtain ⟨rfl, rfl⟩ := recordDetail_injective hcode (fun i ↦ code_of_info) hdetail
      rfl
    | definition layout => exact absurd hword (habbrev _)
  | definition layout =>
    cases y with
    | block g' _ => exact absurd hword.symm (hname g'.id "abbrev" (by decide))
    | record code operands => exact absurd hword.symm (habbrev _)
    | definition layout' =>
      have hspace := not_mem_digits (c := ' ') (by decide)
      rw [firstDetail, firstDetail, Nat.repr_eq_ofList_toDigits, Nat.repr_eq_ofList_toDigits,
        String.toList_ofList, String.toList_ofList] at hdetail
      obtain ⟨-, htexts⟩ := eq_of_cut (hspace _) (hspace _) (List.cons.inj hdetail).2
      rw [commaSeparated_map_injective Operand.text Operand.text_injective
        (fun x ↦ ⟨x.comma_not_mem_text, x.text_ne_nil⟩) (String.toList_inj.mp htexts)]

end Lines

section Trees

variable {inInfo : Bool} {depth number : Nat}

/-- The lines of the items in an item. -/
def contentLines (registry : Registry) (depth : Nat) : Item → List Line
  | .block h content =>
    itemsLines registry (h.id == BlockKind.blockInfo.id) (depth + 1) (firstNumber registry h.id)
      content
  | _ => []

theorem itemLines_eq (registry : Registry) (item : Item) :
    itemLines registry inInfo depth number item =
      firstLine inInfo depth number item :: contentLines registry depth item := by
  cases item with
  | block h content => exact itemLines_block h content
  | record | definition => rfl

/-- What follows the lines of items at this depth stands further out. -/
def Outside (depth : Nat) (rest : List (Nat × List Char)) : Prop :=
  ∀ shape ∈ rest.head?, shape.1 < depth

theorem outside_items (registry : Registry) {rest : List (Nat × List Char)}
    (h : Outside depth rest) (its : List Item) :
    Outside (depth + 1)
      ((itemsLines registry inInfo depth number its).map Line.shape ++ rest) := by
  cases its with
  | nil => exact fun shape hshape ↦ Nat.lt_succ_of_lt (h shape hshape)
  | cons it its =>
    intro shape hshape
    rw [itemsLines_cons, itemLines_eq] at hshape
    cases hshape
    rw [Line.shape, depth_firstLine]
    exact Nat.lt_succ_self depth

theorem not_outside_items (registry : Registry) {rest : List (Nat × List Char)} (it : Item)
    (its : List Item) : ¬ Outside depth
      ((itemsLines registry inInfo depth number (it :: its)).map Line.shape ++ rest) := by
  intro h
  rw [itemsLines_cons, itemLines_eq] at h
  have hlt := h _ rfl
  rw [Line.shape, depth_firstLine] at hlt
  exact Nat.lt_irrefl depth hlt

variable (registry registry' : Registry)

theorem outline_of_itemLines {number' : Nat} {rest rest' : List (Nat × List Char)} {x y : Item}
    (h : (itemLines registry inInfo depth number x).map Line.shape ++ rest =
      (itemLines registry' inInfo depth number' y).map Line.shape ++ rest') :
    outline x = outline y ∧ (contentLines registry depth x).map Line.shape ++ rest =
      (contentLines registry' depth y).map Line.shape ++ rest' := by
  rw [itemLines_eq, itemLines_eq, List.map_cons, List.map_cons] at h
  obtain ⟨hfirst, hcontent⟩ := List.cons.inj h
  exact ⟨outline_of_text (congrArg Prod.snd hfirst), hcontent⟩

mutual

theorem eq_of_itemLines {inInfo : Bool} {depth number number' : Nat}
    {rest rest' : List (Nat × List Char)} (h : Outside (depth + 1) rest)
    (h' : Outside (depth + 1) rest') : (x y : Item) →
    (itemLines registry inInfo depth number x).map Line.shape ++ rest =
      (itemLines registry' inInfo depth number' y).map Line.shape ++ rest' →
    x = y ∧ rest = rest'
  | .block g content, y, heq => by
    obtain ⟨houtline, hcontent⟩ := outline_of_itemLines registry registry' heq
    cases y with
    | block g' content' =>
      obtain ⟨rfl, -⟩ := Item.block.inj houtline
      obtain ⟨rfl, rfl⟩ := eq_of_itemsLines h h' content content' hcontent
      exact ⟨rfl, rfl⟩
    | record | definition => cases houtline
  | .record code operands, y, heq => by
    obtain ⟨houtline, hcontent⟩ := outline_of_itemLines registry registry' heq
    cases y with
    | record | definition => exact ⟨houtline, hcontent⟩
    | block => cases houtline
  | .definition layout, y, heq => by
    obtain ⟨houtline, hcontent⟩ := outline_of_itemLines registry registry' heq
    cases y with
    | record | definition => exact ⟨houtline, hcontent⟩
    | block => cases houtline
termination_by structural x => x

theorem eq_of_itemsLines {inInfo : Bool} {depth number number' : Nat}
    {rest rest' : List (Nat × List Char)} (h : Outside depth rest) (h' : Outside depth rest') :
    (xs ys : List Item) →
    (itemsLines registry inInfo depth number xs).map Line.shape ++ rest =
      (itemsLines registry' inInfo depth number' ys).map Line.shape ++ rest' →
    xs = ys ∧ rest = rest'
  | [], [], heq => ⟨rfl, heq⟩
  | [], y :: ys, heq => by
    have hrest : rest = _ := heq
    exact absurd (hrest ▸ h) (not_outside_items registry' y ys)
  | x :: xs, [], heq => by
    have hrest : rest' = _ := heq.symm
    exact absurd (hrest ▸ h') (not_outside_items registry x xs)
  | x :: xs, y :: ys, heq => by
    -- for the first item the lines of the others are what follows
    rw [itemsLines_cons, itemsLines_cons, List.map_append, List.map_append, List.append_assoc,
      List.append_assoc] at heq
    obtain ⟨rfl, hlines⟩ := eq_of_itemLines (outside_items registry h xs)
      (outside_items registry' h' ys) x y heq
    obtain ⟨rfl, rfl⟩ := eq_of_itemsLines h h' xs ys hlines
    exact ⟨rfl, rfl⟩
termination_by structural xs => xs

end

end Trees

section Streams

mutual

theorem forall_itemLines {p : Line → Prop}
    (hp : ∀ inInfo depth number it, p (firstLine inInfo depth number it)) {registry : Registry}
    {inInfo : Bool} {depth number : Nat} : (it : Item) →
    ∀ l ∈ itemLines registry inInfo depth number it, p l
  | .block h content => by
    rw [itemLines_eq, List.forall_mem_cons]
    exact ⟨hp .., forall_itemsLines hp content⟩
  | .record code operands => by
    rw [itemLines_eq, List.forall_mem_cons]
    exact ⟨hp .., by simp [contentLines]⟩
  | .definition layout => by
    rw [itemLines_eq, List.forall_mem_cons]
    exact ⟨hp .., by simp [contentLines]⟩
termination_by structural it => it

theorem forall_itemsLines {p : Line → Prop}
    (hp : ∀ inInfo depth number it, p (firstLine inInfo depth number it)) {registry : Registry}
    {inInfo : Bool} {depth number : Nat} : (its : List Item) →
    ∀ l ∈ itemsLines registry inInfo depth number its, p l
  | [] => by simp [itemsLines, items]
  | it :: its => by
    rw [itemsLines_cons, List.forall_mem_append]
    exact ⟨forall_itemLines hp it, forall_itemsLines hp its⟩
termination_by structural its => its

end

theorem clear_items {registry : Registry} {inInfo : Bool} {depth number : Nat} (its : List Item) :
    ∀ l ∈ itemsLines registry inInfo depth number its, l.Clear :=
  forall_itemsLines (fun _ _ _ ↦ clear_firstLine) its

theorem toList_listing (p : Palette) (S : Stream) :
    (S.listing p).toList = S.lines.flatMap fun l ↦ (l.render p).toList := by
  rw [Stream.listing, toList_foldl_append]
  rfl

theorem items_injective : Stream.items.Injective := by
  rintro ⟨bs⟩ ⟨cs⟩ h
  have hitem : Block.toItem.Injective := by
    rintro ⟨g, xs⟩ ⟨g', ys⟩ hitem
    cases hitem
    rfl
  rw [Stream.mk.injEq]
  exact List.map_injective_iff.mpr hitem h

/-- Streams with the same listing are the same. -/
theorem listing_plain_inj {S T : Stream} : S.listing .plain = T.listing .plain ↔ S = T := by
  refine ⟨fun h ↦ ?_, congrArg _⟩
  have hchars := congrArg String.toList h
  rw [toList_listing, toList_listing] at hchars
  have hshapes := map_shape_eq (clear_items S.items) (clear_items T.items) hchars
  have hnone : Outside 0 [] := fun _ hshape ↦ absurd hshape (Option.not_mem_none _)
  have hlines : (itemsLines S.registry false 0 Format.firstAbbrev S.items).map Line.shape ++ [] =
      (itemsLines T.registry false 0 Format.firstAbbrev T.items).map Line.shape ++ [] := by
    rw [List.append_nil, List.append_nil]
    exact hshapes
  exact items_injective (eq_of_itemsLines S.registry T.registry hnone hnone _ _ hlines).1

end Streams

end Listing

end BlockStream
