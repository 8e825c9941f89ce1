import BlockStream.Listing
import Mathlib.Data.List.Nodup
import Std.Data.String.ToNat

namespace BlockStream

section Graphic

def isGraphic (c : Char) : Bool := ' ' ≤ c && c ≤ '~'

theorem not_mem_of_isGraphic {cs : List Char} (h : ∀ c ∈ cs, isGraphic c = true) {a : Char}
    (ha : isGraphic a = false) : a ∉ cs := by
  intro hmem
  rw [h a hmem] at ha
  cases ha

theorem isGraphic_of_all {cs : List Char} (h : cs.all isGraphic = true) :
    ∀ c ∈ cs, isGraphic c = true :=
  List.all_eq_true.mp h

theorem isGraphic_of_isDigit {c : Char} (h : c.isDigit = true) : isGraphic c = true := by
  rw [Char.isDigit, Bool.and_eq_true, decide_eq_true_eq, decide_eq_true_eq] at h
  obtain ⟨hlow, hhigh⟩ := h
  rw [isGraphic, Bool.and_eq_true, decide_eq_true_eq, decide_eq_true_eq]
  exact ⟨UInt32.le_trans (by decide) hlow, UInt32.le_trans hhigh (by decide)⟩

theorem isGraphic_digits (n : Nat) : ∀ c ∈ Nat.toDigits 10 n, isGraphic c = true := fun _ hc ↦
  isGraphic_of_isDigit (Nat.isDigit_of_mem_toDigits (by decide) (by decide) hc)

theorem isGraphic_around {front back : String} (hfront : ∀ c ∈ front.toList, isGraphic c = true)
    (hback : ∀ c ∈ back.toList, isGraphic c = true) (n : Nat) :
    ∀ c ∈ (front ++ n.repr ++ back).toList, isGraphic c = true := by
  rw [String.toList_append, String.toList_append, Nat.toList_repr, List.forall_mem_append,
    List.forall_mem_append]
  exact ⟨⟨hfront, isGraphic_digits n⟩, hback⟩

end Graphic

section Cuts

variable {α : Type} {a : α}

theorem eq_of_cut {xs ys r s : List α} (hx : a ∉ xs) (hy : a ∉ ys)
    (h : xs ++ a :: r = ys ++ a :: s) : xs = ys ∧ r = s := by
  induction xs generalizing ys with
  | nil =>
    cases ys with
    | nil => exact ⟨rfl, (List.cons.inj h).2⟩
    | cons y ys => exact absurd ((List.cons.inj h).1 ▸ List.mem_cons_self) hy
  | cons x xs ih =>
    cases ys with
    | nil => exact absurd ((List.cons.inj h).1 ▸ List.mem_cons_self) hx
    | cons y ys =>
      obtain ⟨rfl, hrest⟩ := List.cons.inj h
      obtain ⟨rfl, rfl⟩ := ih (List.not_mem_of_not_mem_cons hx) (List.not_mem_of_not_mem_cons hy)
        hrest
      exact ⟨rfl, rfl⟩

theorem eq_of_replicate {m n : Nat} {xs ys : List α} (hx : xs.head? ≠ some a)
    (hy : ys.head? ≠ some a) (h : List.replicate m a ++ xs = List.replicate n a ++ ys) :
    m = n ∧ xs = ys := by
  induction m generalizing n with
  | zero =>
    cases n with
    | zero => exact ⟨rfl, h⟩
    | succ n => exact absurd (congrArg List.head? h) hx
  | succ m ih =>
    cases n with
    | zero => exact absurd (congrArg List.head? h.symm) hy
    | succ n =>
      obtain ⟨rfl, rfl⟩ := ih (List.cons.inj h).2
      exact ⟨rfl, rfl⟩

theorem intercalate_ne_nil {sep xs : List α} {xss : List (List α)} (h : xs ≠ []) :
    sep.intercalate (xs :: xss) ≠ [] := by
  cases xss with
  | nil => simpa using h
  | cons ys yss => simp [List.intercalate_cons_cons, h]

theorem eq_of_intercalate {rest : List α} {xss yss : List (List α)}
    (hx : ∀ xs ∈ xss, a ∉ xs ∧ xs ≠ []) (hy : ∀ ys ∈ yss, a ∉ ys ∧ ys ≠ [])
    (h : (a :: rest).intercalate xss = (a :: rest).intercalate yss) : xss = yss := by
  induction xss generalizing yss with
  | nil =>
    cases yss with
    | nil => rfl
    | cons ys yss => exact absurd h.symm (intercalate_ne_nil (hy ys List.mem_cons_self).2)
  | cons xs xss ih =>
    cases yss with
    | nil => exact absurd h (intercalate_ne_nil (hx xs List.mem_cons_self).2)
    | cons ys yss =>
      obtain ⟨hxs, hxss⟩ := List.forall_mem_cons.mp hx
      obtain ⟨hys, hyss⟩ := List.forall_mem_cons.mp hy
      cases xss with
      | nil =>
        cases yss with
        | nil => simpa using h
        | cons zs yss =>
          rw [List.intercalate_singleton, List.intercalate_cons_cons] at h
          exact absurd (by simp [h]) hxs.1
      | cons ws xss =>
        cases yss with
        | nil =>
          rw [List.intercalate_singleton, List.intercalate_cons_cons] at h
          exact absurd (by simp [← h]) hys.1
        | cons zs yss =>
          simp only [List.intercalate_cons_cons, List.append_assoc, List.cons_append] at h
          obtain ⟨rfl, hrest⟩ := eq_of_cut hxs.1 hys.1 h
          rw [ih hxss hyss (List.append_cancel_left hrest)]

end Cuts

section Decimals

theorem not_mem_digits {c : Char} (hc : c.isDigit = false) (n : Nat) : c ∉ Nat.toDigits 10 n := by
  intro hmem
  have hdigit := Nat.isDigit_of_mem_toDigits (by decide) (by decide) hmem
  rw [hc] at hdigit
  cases hdigit

theorem digits_inj {m n : Nat} (h : Nat.toDigits 10 m = Nat.toDigits 10 n) : m = n := by
  rw [← Nat.ofDigitChars_ten_toDigits (n := m), h, Nat.ofDigitChars_ten_toDigits]

end Decimals

namespace Operand

/-- The character that the text of an operand begins with. -/
def initial : Operand → Char
  | literal _ => 'l'
  | fixed _ | typeIndex => 'f'
  | vbr _ => 'v'
  | array => 'a'
  | char6 => 'c'
  | blob => 'b'

theorem text_literal (value : UInt64) :
    (literal value).text = "lit(" ++ value.toNat.repr ++ ")" := rfl

theorem text_fixed (width : UInt32) :
    (fixed width).text = "fixed(" ++ width.toNat.repr ++ ")" := rfl

theorem text_vbr (width : UInt32) : (vbr width).text = "vbr(" ++ width.toNat.repr ++ ")" := rfl

theorem head?_text (x : Operand) : x.text.toList.head? = some x.initial := by
  cases x with
  | literal => simp [text_literal, initial]
  | fixed => simp [text_fixed, initial]
  | vbr => simp [text_vbr, initial]
  | array => simp [text, initial]
  | char6 => simp [text, initial]
  | blob => simp [text, initial]
  | typeIndex => simp [text, initial]

theorem text_fixed_ne (width : UInt32) : (fixed width).text ≠ typeIndex.text := by
  intro h
  have hmem : 't' ∈ (fixed width).text.toList := by
    rw [h]
    decide
  simp [text_fixed, not_mem_digits] at hmem

theorem text_injective : Operand.text.Injective := by
  intro x y h
  have hinitial := (head?_text x).symm.trans ((congrArg (·.toList.head?) h).trans (head?_text y))
  cases x <;> cases y <;> try cases hinitial
  case literal.literal v w =>
    simp [text_literal, Nat.repr_inj, UInt64.toNat_inj] at h
    rw [h]
  case fixed.fixed v w =>
    simp [text_fixed, Nat.repr_inj, UInt32.toNat_inj] at h
    rw [h]
  case vbr.vbr v w =>
    simp [text_vbr, Nat.repr_inj, UInt32.toNat_inj] at h
    rw [h]
  case fixed.typeIndex v => exact absurd h (text_fixed_ne v)
  case typeIndex.fixed v => exact absurd h.symm (text_fixed_ne v)
  all_goals rfl

theorem comma_not_mem_text (x : Operand) : ',' ∉ x.text.toList := by
  cases x with
  | literal => simp [text_literal, not_mem_digits]
  | fixed => simp [text_fixed, not_mem_digits]
  | vbr => simp [text_vbr, not_mem_digits]
  | array | char6 | blob | typeIndex => decide

theorem isGraphic_text (x : Operand) : ∀ c ∈ x.text.toList, isGraphic c = true := by
  cases x with
  | literal | fixed | vbr => exact isGraphic_around (isGraphic_of_all rfl) (isGraphic_of_all rfl) _
  | array | char6 | blob | typeIndex => exact isGraphic_of_all rfl

theorem text_ne_nil (x : Operand) : x.text.toList ≠ [] := by
  intro h
  have hhead := head?_text x
  rw [h] at hhead
  cases hhead

end Operand

section Names

theorem BlockKind.mem_all (kind : BlockKind) : kind ∈ all := by
  cases kind <;> decide

theorem BlockKind.name_injective : BlockKind.name.Injective := fun j k h ↦
  List.inj_on_of_nodup_map (by decide : (all.map name).Nodup) (mem_all j) (mem_all k) h

theorem BlockInfoCode.mem_all (info : BlockInfoCode) : info ∈ all := by
  cases info <;> decide

theorem BlockInfoCode.name_injective : BlockInfoCode.name.Injective := fun j k h ↦
  List.inj_on_of_nodup_map (by decide : (all.map name).Nodup) (mem_all j) (mem_all k) h

def isNumbered (name : String) : Bool :=
  name.toList.take 5 == "BLOCK".toList && (name.toList.drop 5).all Char.isDigit

theorem isNumbered_append (n : Nat) : isNumbered ("BLOCK" ++ n.repr) = true := by
  have hdigits : (Nat.toDigits 10 n).all Char.isDigit = true :=
    List.all_eq_true.mpr fun c hc ↦ Nat.isDigit_of_mem_toDigits (by decide) (by decide) hc
  simpa [isNumbered] using hdigits

theorem BlockKind.isNumbered_name (kind : BlockKind) : isNumbered kind.name = false := by
  cases kind <;> decide

theorem blockName_of_ofId? {id : UInt32} {kind : BlockKind} (h : BlockKind.ofId? id = some kind) :
    blockName id = kind.name := by rw [blockName, h]

theorem blockName_of_unknown {id : UInt32} (h : BlockKind.ofId? id = none) :
    blockName id = "BLOCK" ++ id.toNat.repr := by
  rw [blockName, h]
  rfl

theorem blockName_injective : blockName.Injective := by
  intro x y h
  cases hx : BlockKind.ofId? x with
  | none =>
    rw [blockName_of_unknown hx] at h
    cases hy : BlockKind.ofId? y with
    | none =>
      rw [blockName_of_unknown hy, String.append_right_inj] at h
      exact UInt32.toNat_inj.mp (Nat.repr_inj.mp h)
    | some k =>
      rw [blockName_of_ofId? hy] at h
      have hnumbered := isNumbered_append x.toNat
      rw [h, k.isNumbered_name] at hnumbered
      cases hnumbered
  | some j =>
    rw [blockName_of_ofId? hx] at h
    cases hy : BlockKind.ofId? y with
    | none =>
      rw [blockName_of_unknown hy] at h
      have hnumbered := isNumbered_append y.toNat
      rw [← h, j.isNumbered_name] at hnumbered
      cases hnumbered
    | some k =>
      rw [blockName_of_ofId? hy] at h
      obtain rfl := BlockKind.name_injective h
      rw [← BlockKind.id_of_ofId? hx, BlockKind.id_of_ofId? hy]

/-- The words that lines begin with which are no headers. -/
def reserved : List String := ["abbrev", "record", "SETBID", "BLOCKNAME", "SETRECORDNAME"]

theorem blockName_not_mem_reserved (id : UInt32) : blockName id ∉ reserved := by
  cases h : BlockKind.ofId? id with
  | none =>
    intro hmem
    have hreserved : ∀ word ∈ reserved, isNumbered word = false := by decide
    have hnumbered := isNumbered_append id.toNat
    rw [← blockName_of_unknown h, hreserved _ hmem] at hnumbered
    cases hnumbered
  | some kind =>
    rw [blockName_of_ofId? h]
    cases kind <;> decide

theorem space_not_mem_blockName (id : UInt32) : ' ' ∉ (blockName id).toList := by
  cases h : BlockKind.ofId? id with
  | none => simp [blockName_of_unknown h, not_mem_digits]
  | some kind =>
    rw [blockName_of_ofId? h]
    cases kind <;> decide

theorem isGraphic_blockName (id : UInt32) : ∀ c ∈ (blockName id).toList, isGraphic c = true := by
  cases h : BlockKind.ofId? id with
  | none => simpa [blockName_of_unknown h, isGraphic] using isGraphic_digits id.toNat
  | some kind =>
    rw [blockName_of_ofId? h]
    cases kind <;> exact isGraphic_of_all rfl

theorem exists_cons_of_blockName (id : UInt32) :
    ∃ c rest, (blockName id).toList = c :: rest ∧ c.isDigit = false ∧ c ≠ '[' := by
  cases h : BlockKind.ofId? id with
  | none =>
    have hchars : (blockName id).toList = 'B' :: 'L' :: 'O' :: 'C' :: 'K' ::
        Nat.toDigits 10 id.toNat := by
      simp [blockName_of_unknown h]
    exact ⟨_, _, hchars, by decide⟩
  | some kind =>
    rw [blockName_of_ofId? h]
    cases kind <;> exact ⟨_, _, rfl, by decide⟩

theorem head?_blockName_ne (id : UInt32) : (blockName id).toList.head? ≠ some '[' := by
  obtain ⟨c, rest, hname, -, hne⟩ := exists_cons_of_blockName id
  simpa [hname] using hne

theorem blockName_ne_decimal (id : UInt32) (n : Nat) : blockName id ≠ n.repr := by
  intro h
  obtain ⟨c, rest, hname, hdigit, -⟩ := exists_cons_of_blockName id
  rw [h, Nat.repr_eq_ofList_toDigits, String.toList_ofList] at hname
  exact not_mem_digits hdigit n (hname ▸ List.mem_cons_self)

end Names

namespace Listing

section Lists

theorem forall_mem_intercalate {α : Type} {p : α → Prop} {sep : List α} {xss : List (List α)}
    (hsep : ∀ a ∈ sep, p a) (h : ∀ xs ∈ xss, ∀ a ∈ xs, p a) : ∀ a ∈ sep.intercalate xss, p a := by
  induction xss with
  | nil => simp
  | cons xs xss ih =>
    obtain ⟨hxs, hxss⟩ := List.forall_mem_cons.mp h
    cases xss with
    | nil => simpa using hxs
    | cons ys xss =>
      rw [List.intercalate_cons_cons, List.forall_mem_append, List.forall_mem_append]
      exact ⟨⟨hxs, hsep⟩, ih hxss⟩

theorem toList_commaSeparated (texts : List String) :
    (commaSeparated texts).toList =
      '[' :: ([',', ' '].intercalate (texts.map String.toList) ++ [']']) := by
  simp [commaSeparated, String.toList_intercalate]

theorem commaSeparated_map_injective {α : Type} (text : α → String) (hinj : text.Injective)
    (h : ∀ a, ',' ∉ (text a).toList ∧ (text a).toList ≠ []) :
    Function.Injective fun as : List α ↦ commaSeparated (as.map text) := by
  intro xs ys heq
  have hlists := congrArg String.toList heq
  simp only [toList_commaSeparated] at hlists
  have hparts (as : List α) : ∀ part ∈ (as.map text).map String.toList, ',' ∉ part ∧ part ≠ [] := by
    simpa using fun a _ ↦ h a
  have hmaps := eq_of_intercalate (hparts xs) (hparts ys)
    (List.append_cancel_right (List.cons.inj hlists).2)
  rw [List.map_map, List.map_map] at hmaps
  exact List.map_injective_iff.mpr (fun a b hab ↦ hinj (String.toList_inj.mp hab)) hmaps

theorem isGraphic_commaSeparated {texts : List String}
    (h : ∀ text ∈ texts, ∀ c ∈ text.toList, isGraphic c = true) :
    ∀ c ∈ (commaSeparated texts).toList, isGraphic c = true := by
  have hinner : ∀ c ∈ [',', ' '].intercalate (texts.map String.toList), isGraphic c = true :=
    forall_mem_intercalate (isGraphic_of_all rfl) (by simpa using h)
  rw [toList_commaSeparated, List.forall_mem_cons, List.forall_mem_append]
  exact ⟨rfl, hinner, isGraphic_of_all rfl⟩

theorem numbers_injective : numbers.Injective :=
  commaSeparated_map_injective (fun v : UInt64 ↦ toString v.toNat)
    (fun _ _ h ↦ UInt64.toNat_inj.mp (Nat.repr_inj.mp h))
    fun v ↦ ⟨by simp [not_mem_digits], by simp [Nat.toDigits_ne_nil]⟩

end Lists

end Listing

end BlockStream
