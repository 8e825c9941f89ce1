import BlockStream.Abbreviation

namespace BlockStream

def Operand.isSingle : Operand → Bool
  | literal _ | fixed _ | vbr _ | char6 | typeIndex => true
  | array | blob => false

namespace Layout

/-- What may stand behind the operands that take one value each. -/
inductive Ending : Layout → Prop
  | nothing : Ending []
  | blob : Ending [.blob]
  | array {element : Operand} (scalar : element.isScalar = true) : Ending [.array, element]

/-- Operands that take one value each, and then an ending. -/
def InGrammar (layout : Layout) : Prop :=
  ∃ front ending, layout = front ++ ending ∧ (∀ op ∈ front, op.isSingle = true) ∧ Ending ending

/-- An array is the last operand but one, with a scalar behind it; a blob is the last operand. -/
def InPlace (layout : Layout) (i : Nat) : Operand → Prop
  | .array => i + 2 = layout.length ∧ ∃ element, layout[i + 1]? = some element ∧
      element.isScalar = true
  | .blob => i + 1 = layout.length
  | _ => True

theorem isWellFormed_iff (layout : Layout) : layout.isWellFormed = true ↔
    1 ≤ layout.length ∧ layout.length ≤ 8 ∧ layout.endsWell = true := by
  have hpos : (!layout.isEmpty) = true ↔ 1 ≤ layout.length := by
    simp [Nat.one_le_iff_ne_zero]
  rw [isWellFormed, Bool.and_eq_true, Bool.and_eq_true, hpos, decide_eq_true_eq, and_assoc]
  exact Iff.rfl

section Endings

theorem isSingle_of_isScalar {op : Operand} (h : op.isScalar = true) : op.isSingle = true := by
  cases op <;> first | rfl | cases h

theorem endsWell_cons_of_isSingle {op : Operand} (h : op.isSingle = true) (rest : Layout) :
    endsWell (op :: rest) = endsWell rest := by
  cases op <;> first | rfl | cases h

theorem endsWell_array_iff {rest : Layout} :
    endsWell (.array :: rest) = true ↔ ∃ element, rest = [element] ∧ element.isScalar = true := by
  match rest with
  | [] => simp [endsWell]
  | [element] => simp [endsWell]
  | _ :: _ :: _ => simp [endsWell]

theorem endsWell_blob_iff {rest : Layout} : endsWell (.blob :: rest) = true ↔ rest = [] := by
  rw [endsWell, List.isEmpty_iff]

theorem inGrammar_cons {op : Operand} {rest : Layout} (h : op.isSingle = true) :
    InGrammar (op :: rest) ↔ InGrammar rest := by
  constructor
  · rintro ⟨front, ending, heq, hfront, hending⟩
    cases front with
    | nil =>
      -- an ending begins with an operand that takes more than one value
      cases hending with
      | nothing => cases heq
      | blob =>
        cases heq
        cases h
      | array =>
        cases heq
        cases h
    | cons first front =>
      obtain ⟨rfl, rfl⟩ := List.cons.inj heq
      exact ⟨front, ending, rfl, fun o ho ↦ hfront o (List.mem_cons_of_mem _ ho), hending⟩
  · rintro ⟨front, ending, rfl, hfront, hending⟩
    exact ⟨op :: front, ending, rfl, List.forall_mem_cons.mpr ⟨h, hfront⟩, hending⟩

theorem ending_of_not_isSingle {op : Operand} {rest : Layout} (h : op.isSingle = false)
    (hgrammar : InGrammar (op :: rest)) : Ending (op :: rest) := by
  obtain ⟨front, ending, heq, hfront, hending⟩ := hgrammar
  cases front with
  | nil => exact heq ▸ hending
  | cons first front =>
    obtain ⟨rfl, -⟩ := List.cons.inj heq
    cases h.symm.trans (hfront op List.mem_cons_self)

theorem endsWell_iff_inGrammar (layout : Layout) : endsWell layout = true ↔ layout.InGrammar := by
  induction layout with
  | nil => exact iff_of_true rfl ⟨[], [], rfl, nofun, .nothing⟩
  | cons op rest ih =>
    by_cases hsingle : op.isSingle = true
    · rw [endsWell_cons_of_isSingle hsingle, ih, inGrammar_cons hsingle]
    · constructor
      · intro h
        cases op with
        | array =>
          obtain ⟨element, rfl, hscalar⟩ := endsWell_array_iff.mp h
          exact ⟨[], _, rfl, nofun, .array hscalar⟩
        | blob =>
          obtain rfl := endsWell_blob_iff.mp h
          exact ⟨[], _, rfl, nofun, .blob⟩
        | _ => exact absurd rfl hsingle
      · intro h
        cases ending_of_not_isSingle (eq_false_of_ne_true hsingle) h with
        | blob => rfl
        | array hscalar => exact hscalar

end Endings

section Places

theorem inPlace_of_isSingle {op : Operand} (h : op.isSingle = true) (layout : Layout) (i : Nat) :
    layout.InPlace i op := by
  cases op with
  | array | blob => cases h
  | _ => trivial

theorem inPlace_cons_succ {first : Operand} {rest : Layout} {i : Nat} {op : Operand} :
    InPlace (first :: rest) (i + 1) op ↔ InPlace rest i op := by
  cases op <;> simp [InPlace]

theorem inPlace_head_iff {op : Operand} (h : op.isSingle = false) (rest : Layout) :
    InPlace (op :: rest) 0 op ↔ endsWell (op :: rest) = true := by
  cases op with
  | array =>
    rw [endsWell_array_iff]
    constructor
    · rintro ⟨hlen, element, hget, hscalar⟩
      have hone : rest.length = 1 := by simpa using hlen.symm
      obtain ⟨_, rfl⟩ := List.length_eq_one_iff.mp hone
      cases hget
      exact ⟨element, rfl, hscalar⟩
    · rintro ⟨element, rfl, hscalar⟩
      exact ⟨rfl, element, rfl, hscalar⟩
  | blob =>
    rw [endsWell_blob_iff, InPlace, List.length_cons, eq_comm]
    simp
  | _ => cases h

theorem isSingle_behind {op : Operand} (h : op.isSingle = false) {rest : Layout}
    (hends : endsWell (op :: rest) = true) : ∀ o ∈ rest, o.isSingle = true := by
  cases op with
  | array =>
    obtain ⟨element, rfl, hscalar⟩ := endsWell_array_iff.mp hends
    simpa using isSingle_of_isScalar hscalar
  | blob =>
    obtain rfl := endsWell_blob_iff.mp hends
    simp
  | _ => cases h

theorem endsWell_iff_inPlace (layout : Layout) :
    endsWell layout = true ↔ ∀ i op, layout[i]? = some op → layout.InPlace i op := by
  induction layout with
  | nil => exact iff_of_true rfl fun i op h ↦ by cases h
  | cons first rest ih =>
    have hsplit : (∀ i op, (first :: rest)[i]? = some op → InPlace (first :: rest) i op) ↔
        InPlace (first :: rest) 0 first ∧ ∀ i op, rest[i]? = some op → InPlace rest i op := by
      constructor
      · intro h
        exact ⟨h 0 first rfl, fun i op hop ↦ inPlace_cons_succ.mp (h (i + 1) op hop)⟩
      · rintro ⟨hfirst, hrest⟩ i op hop
        cases i with
        | zero =>
          cases hop
          exact hfirst
        | succ i => exact inPlace_cons_succ.mpr (hrest i op hop)
    rw [hsplit]
    by_cases hsingle : first.isSingle = true
    · rw [endsWell_cons_of_isSingle hsingle, ih]
      exact (and_iff_right (inPlace_of_isSingle hsingle _ 0)).symm
    · have hhead := inPlace_head_iff (eq_false_of_ne_true hsingle) rest
      rw [hhead]
      refine ⟨fun h ↦ ⟨h, fun i op hop ↦ ?_⟩, And.left⟩
      have hop' := isSingle_behind (eq_false_of_ne_true hsingle) h op (List.mem_of_getElem? hop)
      exact inPlace_of_isSingle hop' rest i

end Places

section Sizing

variable (types : UInt32)

theorem isSingle_resolve (op : Operand) : (op.resolve types).isSingle = op.isSingle := by
  cases op <;> rfl

theorem isScalar_resolve (op : Operand) : (op.resolve types).isScalar = op.isScalar := by
  cases op <;> rfl

theorem endsWell_resolve (layout : Layout) : endsWell (layout.resolve types) = endsWell layout := by
  induction layout with
  | nil => rfl
  | cons op rest ih =>
    change endsWell (op.resolve types :: resolve types rest) = endsWell (op :: rest)
    by_cases hsingle : op.isSingle = true
    · have hresolved := (isSingle_resolve types op).trans hsingle
      rw [endsWell_cons_of_isSingle hresolved, endsWell_cons_of_isSingle hsingle, ih]
    · cases op with
      | array =>
        match rest with
        | [] => rfl
        | [element] => exact isScalar_resolve types element
        | _ :: _ :: _ => rfl
      | blob => cases rest <;> rfl
      | _ => exact absurd rfl hsingle

theorem isWellFormed_resolve (layout : Layout) :
    (layout.resolve types).isWellFormed = layout.isWellFormed := by
  have hempty : (layout.resolve types).isEmpty = layout.isEmpty := List.isEmpty_map
  have hlen : (layout.resolve types).length = layout.length := List.length_map _
  simp only [isWellFormed, endsWell_resolve, hempty, hlen]

end Sizing

end Layout

end BlockStream
