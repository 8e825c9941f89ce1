import BlockStream.Proofs.Listing.Unambiguous

namespace BlockStream

/-- The character that escape sequences begin with. -/
def escape : Char := '\x1b'

/-- An escape sequence that sets a style: behind the escape character a bracket, digits and an
`m`. -/
def IsEscape (text : List Char) : Prop :=
  ∃ digits : List Char, digits ≠ [] ∧ (∀ c ∈ digits, c.isDigit = true) ∧
    text = escape :: '[' :: (digits ++ ['m'])

def behindEscape? : List Char → Option (List Char)
  | '\x1b' :: '[' :: digit :: rest =>
    match rest.dropWhile Char.isDigit with
    | 'm' :: behind => if digit.isDigit then some behind else none
    | _ => none
  | _ => none

theorem exists_isEscape {text behind : List Char} (h : behindEscape? text = some behind) :
    ∃ e, IsEscape e ∧ text = e ++ behind := by
  unfold behindEscape? at h
  split at h
  · rename_i digit rest
    have hsplit := List.takeWhile_append_dropWhile (p := Char.isDigit) (l := rest)
    split at h
    · rename_i hrest
      split at h <;> cases h
      rename_i hdigit
      rw [hrest] at hsplit
      refine ⟨_, ⟨digit :: rest.takeWhile Char.isDigit, by simp, ?_, rfl⟩, ?_⟩
      · rw [List.forall_mem_cons]
        exact ⟨hdigit, List.all_eq_true.mp List.all_takeWhile⟩
      · simp [escape, hsplit]
    · cases h
  · cases h

theorem length_behindEscape? {text behind : List Char} (h : behindEscape? text = some behind) :
    behind.length < text.length := by
  obtain ⟨e, ⟨digits, -, -, rfl⟩, rfl⟩ := exists_isEscape h
  simp only [List.length_append, List.length_cons]
  omega

/-- The text without its escape sequences. -/
def unstyled (text : List Char) : List Char :=
  match _h : behindEscape? text with
  | some behind => unstyled behind
  | none =>
    match text with
    | [] => []
    | c :: rest => c :: unstyled rest
termination_by text.length
decreasing_by
  · exact length_behindEscape? _h
  · exact Nat.lt_succ_self _

section Escapes

theorem behindEscape?_of_isEscape {text : List Char} (h : IsEscape text) (rest : List Char) :
    behindEscape? (text ++ rest) = some rest := by
  obtain ⟨digits, hne, hdigits, rfl⟩ := h
  obtain ⟨digit, digits, rfl⟩ := List.exists_cons_of_ne_nil hne
  obtain ⟨hdigit, hdigits⟩ := List.forall_mem_cons.mp hdigits
  have hdrop : ((digits ++ ['m']) ++ rest).dropWhile Char.isDigit = 'm' :: rest := by
    rw [List.append_assoc, List.dropWhile_append_of_pos hdigits]
    rfl
  simp only [List.cons_append, behindEscape?, escape, hdrop, hdigit, if_true]

theorem unstyled_of_isEscape {text : List Char} (h : IsEscape text) (rest : List Char) :
    unstyled (text ++ rest) = unstyled rest := by
  rw [unstyled]
  split
  · rename_i behind hbehind
    rw [behindEscape?_of_isEscape h] at hbehind
    cases hbehind
    rfl
  · rename_i hbehind
    rw [behindEscape?_of_isEscape h] at hbehind
    cases hbehind

theorem unstyled_nil : unstyled [] = [] := by
  rw [unstyled]
  rfl

theorem unstyled_cons {c : Char} (h : c ≠ escape) (rest : List Char) :
    unstyled (c :: rest) = c :: unstyled rest := by
  have hnone : behindEscape? (c :: rest) = none := by
    unfold behindEscape?
    split
    · rename_i heq
      cases heq
      exact absurd rfl h
    · rfl
  rw [unstyled]
  split
  · rename_i hbehind
    rw [hnone] at hbehind
    cases hbehind
  · rfl

theorem unstyled_append {xs : List Char} (h : ∀ c ∈ xs, c ≠ escape) (rest : List Char) :
    unstyled (xs ++ rest) = xs ++ unstyled rest := by
  induction xs with
  | nil => rfl
  | cons x xs ih =>
    obtain ⟨hx, hxs⟩ := List.forall_mem_cons.mp h
    rw [List.cons_append, unstyled_cons hx, ih hxs, List.cons_append]

theorem IsEscape.eq_of_append {e f r s : List Char} (he : IsEscape e) (hf : IsEscape f)
    (h : e ++ r = f ++ s) : e = f ∧ r = s := by
  have hbehind := congrArg behindEscape? h
  rw [behindEscape?_of_isEscape he, behindEscape?_of_isEscape hf, Option.some.injEq] at hbehind
  subst hbehind
  exact ⟨List.append_cancel_right h, rfl⟩

section Occurrences

variable {e front rest : List Char} (he : IsEscape e)
include he

theorem IsEscape.occurs_behind {xs ys : List Char} (hxs : ∀ c ∈ xs, c ≠ escape)
    (h : xs ++ ys = front ++ e ++ rest) : ∃ front', ys = front' ++ e ++ rest := by
  induction xs generalizing front with
  | nil => exact ⟨front, h⟩
  | cons x xs ih =>
    obtain ⟨hx, hxs⟩ := List.forall_mem_cons.mp hxs
    cases front with
    | nil =>
      obtain ⟨digits, -, -, rfl⟩ := he
      exact absurd (List.cons.inj h).1 hx
    | cons c front => exact ih hxs (List.cons.inj h).2

theorem IsEscape.occurs_within {f ys : List Char} (hf : IsEscape f)
    (h : f ++ ys = front ++ e ++ rest) :
    e = f ∧ rest = ys ∨ ∃ front', ys = front' ++ e ++ rest := by
  cases front with
  | nil => exact .inl (he.eq_of_append hf h.symm)
  | cons c front =>
    refine .inr ?_
    obtain ⟨digits, -, hdigits, rfl⟩ := hf
    have htail : ∀ c ∈ '[' :: (digits ++ ['m']), c ≠ escape := by
      rw [List.forall_mem_cons, List.forall_mem_append]
      refine ⟨by decide, fun c hc heq ↦ ?_, List.forall_mem_singleton.mpr (by decide)⟩
      have hdigit := hdigits c hc
      rw [heq] at hdigit
      cases hdigit
    exact he.occurs_behind htail (List.cons.inj h).2

end Occurrences

end Escapes

namespace Palette

/-- All that a palette puts into a text is escape sequences, and no role begins with the one that
ends them. -/
structure Escapes (p : Palette) : Prop where
  start : ∀ role, IsEscape (p.start role).toList
  reset : IsEscape p.reset.toList
  start_ne : ∀ role, (p.start role).toList ≠ p.reset.toList

theorem escapes_colored : colored.Escapes where
  start
    | .block => ⟨['3', '4'], by decide, List.all_eq_true.mp rfl, rfl⟩
    | .record => ⟨['3', '2'], by decide, List.all_eq_true.mp rfl, rfl⟩
    | .definition => ⟨['3', '5'], by decide, List.all_eq_true.mp rfl, rfl⟩
    | .detail => ⟨['2'], by decide, List.all_eq_true.mp rfl, rfl⟩
  reset := ⟨['0'], by decide, List.all_eq_true.mp rfl, rfl⟩
  start_ne
    | .block | .record | .definition | .detail => by decide

/-- Wherever a role begins in the text it is ended in the same line, and before another sequence. -/
def Closes (p : Palette) (text : List Char) : Prop :=
  ∀ front role rest, text = front ++ (p.start role).toList ++ rest →
    ∃ inner behind, rest = inner ++ p.reset.toList ++ behind ∧
      ∀ c ∈ inner, c ≠ '\n' ∧ c ≠ escape

end Palette

/-- The styled text is the plain one with roles put around stretches of its lines. -/
inductive Styles (p : Palette) : (styled plain : List Char) → Prop
  | nil : Styles p [] []
  | char {c : Char} {styled plain : List Char} :
      c ≠ escape → Styles p styled plain → Styles p (c :: styled) (c :: plain)
  | role (role : Role) {inner styled plain : List Char} :
      (∀ c ∈ inner, c ≠ '\n' ∧ c ≠ escape) → Styles p styled plain →
      Styles p ((p.start role).toList ++ (inner ++ (p.reset.toList ++ styled))) (inner ++ plain)

namespace Styles

variable {p : Palette} {xs ys xs' ys' : List Char}

theorem append (h : Styles p xs ys) (k : Styles p xs' ys') :
    Styles p (xs ++ xs') (ys ++ ys') := by
  induction h with
  | nil => exact k
  | char hc _ ih => exact .char hc ih
  | role role hinner _ ih =>
    have hrole := Styles.role role hinner ih
    simpa only [List.append_assoc] using hrole

theorem of_plain (h : ∀ c ∈ xs, c ≠ escape) : Styles p xs xs := by
  induction xs with
  | nil => exact .nil
  | cons x xs ih =>
    obtain ⟨hx, hxs⟩ := List.forall_mem_cons.mp h
    exact .char hx (ih hxs)

theorem flatMap {α : Type} {f g : α → List Char} {as : List α}
    (h : ∀ a ∈ as, Styles p (f a) (g a)) : Styles p (as.flatMap f) (as.flatMap g) := by
  induction as with
  | nil => exact .nil
  | cons a as ih =>
    obtain ⟨ha, has⟩ := List.forall_mem_cons.mp h
    exact ha.append (ih has)

theorem not_mem (h : Styles p xs ys) : escape ∉ ys := by
  induction h with
  | nil => exact List.not_mem_nil
  | char hc _ ih => exact List.not_mem_cons_of_ne_of_not_mem hc.symm ih
  | role role hinner _ ih =>
    rw [List.mem_append]
    rintro (hmem | hmem)
    · exact (hinner _ hmem).2 rfl
    · exact ih hmem

variable (hp : p.Escapes)
include hp

theorem unstyled_eq (h : Styles p xs ys) : unstyled xs = ys := by
  induction h with
  | nil => exact unstyled_nil
  | char hc _ ih => rw [unstyled_cons hc, ih]
  | role role hinner _ ih =>
    rw [unstyled_of_isEscape (hp.start role), unstyled_append fun c hc ↦ (hinner c hc).2,
      unstyled_of_isEscape hp.reset, ih]

theorem closes (h : Styles p xs ys) : p.Closes xs := by
  induction h with
  | nil =>
    intro front role rest htext
    obtain ⟨digits, -, -, hstart⟩ := hp.start role
    simp [hstart] at htext
  | @char c styled _ hc _ ih =>
    intro front role rest htext
    have hchar : ∀ a ∈ [c], a ≠ escape := List.forall_mem_singleton.mpr hc
    obtain ⟨front', hbehind⟩ := (hp.start role).occurs_behind hchar htext
    exact ih front' role rest hbehind
  | @role role inner styled plain hinner _ ih =>
    intro front next rest htext
    have hnext := hp.start next
    rcases hnext.occurs_within (hp.start role) htext with ⟨-, rfl⟩ | ⟨front₁, h₁⟩
    · exact ⟨inner, styled, (List.append_assoc ..).symm, hinner⟩
    -- the role begins behind this one, and so behind what ends this one
    obtain ⟨front₂, h₂⟩ := hnext.occurs_behind (fun c hc ↦ (hinner c hc).2) h₁
    rcases hnext.occurs_within hp.reset h₂ with ⟨heq, -⟩ | ⟨front₃, h₃⟩
    · exact absurd heq (hp.start_ne next)
    · exact ih front₃ next rest h₃

end Styles

section Rendering

variable (p : Palette)

theorem styles_span {s : Span} (h : ∀ c ∈ s.text.toList, isGraphic c = true) :
    Styles p (s.render p).toList s.text.toList := by
  have hinner : ∀ c ∈ s.text.toList, c ≠ '\n' ∧ c ≠ escape := by
    intro c hc
    refine ⟨?_, ?_⟩ <;> rintro rfl <;> cases h _ hc
  obtain ⟨_ | role, text⟩ := s
  · exact .of_plain fun c hc ↦ (hinner c hc).2
  · have hrole := Styles.role (p := p) role hinner .nil
    simpa [Span.render] using hrole

theorem styles_line {l : Line} (h : ∀ c ∈ l.text, isGraphic c = true) :
    Styles p (l.render p).toList (l.render .plain).toList := by
  have hrender : (l.render p).toList = List.replicate (2 * l.depth) ' ' ++
      (l.spans.flatMap fun s ↦ (s.render p).toList) ++ ['\n'] := by
    simp [Line.render, toList_foldl_append]
  have hspans : Styles p (l.spans.flatMap fun s ↦ (s.render p).toList) l.text := by
    refine Styles.flatMap fun s hs ↦ styles_span p fun c hc ↦ ?_
    exact h c (List.mem_flatMap.mpr ⟨s, hs, hc⟩)
  rw [hrender, Line.render_plain]
  refine ((Styles.of_plain ?_).append hspans).append
    (.of_plain (List.forall_mem_singleton.mpr (by decide)))
  intro c hc
  rw [List.eq_of_mem_replicate hc]
  decide

end Rendering

namespace Listing

theorem styles_listing (p : Palette) (S : Stream) :
    Styles p (S.listing p).toList (S.listing .plain).toList := by
  have hgraphic : ∀ l ∈ S.lines, ∀ c ∈ l.text, isGraphic c = true :=
    forall_itemsLines (fun _ _ _ ↦ isGraphic_firstLine) S.items
  rw [toList_listing, toList_listing]
  exact Styles.flatMap fun l hl ↦ styles_line p (hgraphic l hl)

/-- A coloured listing without its escape sequences is the plain one, each role that begins in it is
ended in the same line, and the plain one has no escape character in it. -/
theorem listing_colored (S : Stream) :
    unstyled (S.listing .colored).toList = (S.listing .plain).toList ∧
      Palette.colored.Closes (S.listing .colored).toList ∧
      escape ∉ (S.listing .plain).toList := by
  have hstyles := styles_listing .colored S
  exact ⟨hstyles.unstyled_eq Palette.escapes_colored, hstyles.closes Palette.escapes_colored,
    hstyles.not_mem⟩

end Listing

end BlockStream
