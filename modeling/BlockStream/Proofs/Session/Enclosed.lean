import BlockStream.Proofs.Session.Nests

namespace BlockStream.Session

/-- A call is in place if it leaves the buffer to the session, writes a record or a definition only
into a block, opens blocks outermost only of kinds that are `allowed`, and opens no more than may be
open at once. -/
structure Call.InPlace (allowed : BlockKind → Prop) (s : Session) (call : Call) : Prop where
  framing : call.isFraming = true
  enclosed : call.isLeaf = true → s.frames ≠ []
  outermost : s.frames = [] → ∀ kind : BlockKind, call = .openBlock kind.id → allowed kind
  shallow : (s.next call).depth ≤ Format.maxDepth

instance (s : Session) (call : Call) : Decidable (call.InPlace (fun _ ↦ True) s) :=
  decidable_of_iff (call.isFraming = true ∧ (call.isLeaf = true → s.frames ≠ []) ∧
    (s.next call).depth ≤ Format.maxDepth)
    ⟨fun ⟨framing, enclosed, shallow⟩ ↦ ⟨framing, enclosed, fun _ _ _ ↦ trivial, shallow⟩,
      fun h ↦ ⟨h.framing, h.enclosed, h.shallow⟩⟩

/-- An item that may stand in so many open blocks. -/
structure Stands (allowed : BlockKind → Prop) (depth : Nat) (item : Item) : Prop where
  outermost : depth = 0 → ∃ kind words body, allowed kind ∧
    item = .block ⟨BlockKind.id kind, kind.abbrevWidth, words⟩ body
  shallow : depth + item.depth ≤ Format.maxDepth

/-- The session `t` comes from `s` by writing items and opening blocks, all of them in place. -/
inductive Encloses (allowed : BlockKind → Prop) (s : Session) : Session → Prop
  | base {t : Session} {items : List Item} (emits : s.Emits t items)
      (stand : ∀ item ∈ items, Stands allowed s.depth item) : Encloses allowed s t
  | inner {t u v : Session} {id : UInt32} {kind : BlockKind} {scope : Scope} {items : List Item}
      (encloses : Encloses allowed s t) (known : BlockKind.ofId? id = some kind)
      (opened : Emit.beginBlock id t = .ok scope u) (admitted : t.frames = [] → allowed kind)
      (shallow : u.depth ≤ Format.maxDepth) (emits : u.Emits v items)
      (stand : ∀ item ∈ items, Stands allowed u.depth item) : Encloses allowed s v

theorem depth_of_flat {item : Item} (h : item.isBlock = false) : item.depth = 0 := by
  cases item with
  | block => cases h
  | record | definition => rfl

theorem depthAll_le {items : List Item} {n limit : Nat} (hn : n ≤ limit)
    (h : ∀ item ∈ items, n + item.depth ≤ limit) : n + Item.depthAll items ≤ limit := by
  induction items with
  | nil => exact hn
  | cons item rest ih =>
    have hitem := h item List.mem_cons_self
    have hrest := ih fun i hi ↦ h i (List.mem_cons_of_mem _ hi)
    rw [Item.depthAll]
    omega

namespace Encloses

variable {allowed : BlockKind → Prop} {s t u : Session}

theorem tidy (h : Encloses allowed s t) : t.out.Tidy := by
  cases h with
  | base emits _ => exact emits.adds.tidy
  | inner _ _ _ _ _ emits _ => exact emits.adds.tidy

theorem add (h : Encloses allowed s t) {items : List Item} (hemits : t.Emits u items)
    (hstand : ∀ item ∈ items, Stands allowed t.depth item) : Encloses allowed s u := by
  have happend {depth : Nat} {front : List Item} (hdepth : t.depth = depth)
      (hfront : ∀ item ∈ front, Stands allowed depth item) :
      ∀ item ∈ front ++ items, Stands allowed depth item := by
    subst hdepth
    intro item hitem
    rcases List.mem_append.mp hitem with hitem | hitem
    · exact hfront item hitem
    · exact hstand item hitem
  cases h with
  | base emits stand =>
    exact .base (emits.trans hemits) (happend (depth_congr emits.frames) stand)
  | inner encloses known opened admitted shallow emits stand =>
    exact .inner encloses known opened admitted shallow (emits.trans hemits)
      (happend (depth_congr emits.frames) stand)

theorem stands_block {id : UInt32} {kind : BlockKind} {scope : Scope} {items : List Item}
    {block : Item} (known : BlockKind.ofId? id = some kind)
    (opened : Emit.beginBlock id t = .ok scope u) (admitted : t.frames = [] → allowed kind)
    (shallow : u.depth ≤ Format.maxDepth) (stand : ∀ item ∈ items, Stands allowed u.depth item)
    (hblock : kind.blockOf? items = some block) : Stands allowed t.depth block := by
  obtain ⟨words, -, rfl⟩ := blockOf?_eq_some hblock
  have hdepth : u.depth = t.depth + 1 := by
    cases (Emit.beginBlock_eq known t).symm.trans opened
    rfl
  have hall := depthAll_le shallow fun item hitem ↦ (stand item hitem).shallow
  refine ⟨fun hzero ↦ ⟨kind, words, items, admitted (List.length_eq_zero_iff.mp hzero), rfl⟩, ?_⟩
  rw [Item.depth]
  omega

end Encloses

section Calls

variable {allowed : BlockKind → Prop} {s t : Session}

theorem encloses_next (hs : s.frames = []) (h : Encloses allowed s t) {call : Call}
    (hcall : call.InPlace allowed t) :
    Encloses allowed s (t.next call) ∨ (t.next call).Overlong := by
  by_cases hclose : ∃ scope, call = .closeBlock scope
  · obtain ⟨scope, rfl⟩ := hclose
    cases h with
    | base emits stand =>
      rw [closeBlock_of_outermost (emits.frames.trans hs)]
      exact .inl (.base emits stand)
    | inner encloses known opened admitted shallow emits stand =>
      rcases closeBlock_cases encloses.tidy known opened emits scope with
        hsame | ⟨block, hblock, -, hemits⟩ | hlong
      · rw [hsame]
        exact .inl (.inner encloses known opened admitted shallow emits stand)
      · have hstands := Encloses.stands_block known opened admitted shallow stand hblock
        exact .inl (encloses.add hemits (by simpa using hstands))
      · exact .inr hlong
  · refine .inl ?_
    cases writes_next h.tidy hcall.framing (not_exists.mp hclose) with
    | nothing emits => exact h.add emits (by simp)
    | @leaf item emits flat called =>
      have hdepth : (t.next call).depth = t.depth := depth_congr emits.frames
      have hopen : t.depth ≠ 0 := fun hzero ↦
        hcall.enclosed called (List.length_eq_zero_iff.mp hzero)
      have hstands : Stands allowed t.depth item := by
        refine ⟨fun hzero ↦ absurd hzero hopen, ?_⟩
        rw [depth_of_flat flat, ← hdepth]
        exact hcall.shallow
      exact h.add emits (by simpa using hstands)
    | @opens id kind scope called known opened tidy =>
      obtain rfl := BlockKind.id_of_ofId? known
      exact .inner h known opened (fun hnil ↦ hcall.outermost hnil kind called) hcall.shallow
        (.refl tidy) (by simp)

theorem emits_of_closed (hs : s.frames = []) (hsound : s.Sound) {calls : List Call}
    (hcalls : Along (Call.InPlace allowed) s calls) (hclosed : (s.after calls).frames = []) :
    ∃ items, s.Emits (s.after calls) items ∧ ∀ item ∈ items, Stands allowed 0 item := by
  have hdepth : s.depth = 0 := List.length_eq_zero_iff.mpr hs
  have hstart : Encloses allowed s s := .base (.refl hsound.tidy) (by simp)
  rcases after_of_along (Q := Encloses allowed s) (fun hcall h ↦ encloses_next hs h hcall) hsound
    hcalls (.inl hstart) with h | ⟨f, hf, -⟩
  · generalize s.after calls = t at h hclosed
    cases h with
    | base emits stand => exact ⟨_, emits, hdepth ▸ stand⟩
    | inner encloses known opened admitted shallow emits stand =>
      cases (Emit.beginBlock_eq known _).symm.trans opened
      rw [emits.frames] at hclosed
      cases hclosed
  · rw [hclosed] at hf
    cases hf

end Calls

end BlockStream.Session
