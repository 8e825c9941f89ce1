import BlockStream.Proofs.Abbreviation
import BlockStream.Proofs.Registry.Nearest
import BlockStream.Proofs.Session.Outermost

namespace BlockStream

/-- The layouts defined in an item, itself included, in order. -/
def Item.layouts (item : Item) : List Layout := (item.declarations 0 []).map (·.layout)

namespace Item

theorem map_layout_declarations (item : Item) (block : UInt32) (front : List Item) :
    (item.declarations block front).map (·.layout) = item.layouts := by
  cases item <;> rfl

theorem map_layout_declarationsAll (items : List Item) (block : UInt32) (front : List Item) :
    (declarationsAll block front items).map (·.layout) = items.flatMap layouts := by
  induction items generalizing front with
  | nil => rfl
  | cons item rest ih =>
    rw [declarationsAll, List.map_append, map_layout_declarations, ih, List.flatMap_cons]

theorem layouts_block (header : Header) (items : List Item) :
    (Item.block header items).layouts = items.flatMap layouts :=
  map_layout_declarationsAll items header.id []

end Item

theorem Stream.map_layout_declarations (S : Stream) :
    S.declarations.map (·.layout) = S.items.flatMap Item.layouts := by
  rw [declarations, List.map_flatMap, items, List.flatMap_map]
  apply List.flatMap_congr
  intro block _
  rw [Block.toItem, Item.layouts_block]
  exact Item.map_layout_declarationsAll block.items block.header.id []

namespace Session

/-- The definition that a call makes, with its number of types. A table of no types is refused. -/
def Call.defines : Call → List (Layout × UInt32)
  | .define layout types => if types = 0 then [] else [(layout, types)]
  | _ => []

/-- Definitions as they are written. -/
def sized (definitions : List (Layout × UInt32)) : List Layout :=
  definitions.map fun (layout, types) ↦ layout.resolve types

/-- The session `t` comes from `s` by writing items and opening blocks, and these layouts are what
it has defined on the way. -/
inductive Defines (s : Session) : List Layout → Session → Prop
  | base {t : Session} {items : List Item} (emits : s.Emits t items) :
      Defines s (items.flatMap Item.layouts) t
  | inner {layouts : List Layout} {t u v : Session} {id : UInt32} {kind : BlockKind} {scope : Scope}
      {items : List Item} (outer : Defines s layouts t) (known : BlockKind.ofId? id = some kind)
      (opened : Emit.beginBlock id t = .ok scope u) (emits : u.Emits v items) :
      Defines s (layouts ++ items.flatMap Item.layouts) v

namespace Defines

variable {s t u : Session} {layouts : List Layout}

theorem tidy (h : Defines s layouts t) : t.out.Tidy := by
  cases h with
  | base emits => exact emits.adds.tidy
  | inner _ _ _ emits => exact emits.adds.tidy

theorem add (h : Defines s layouts t) {items : List Item} (hemits : t.Emits u items) :
    Defines s (layouts ++ items.flatMap Item.layouts) u := by
  cases h with
  | base emits =>
    rw [← List.flatMap_append]
    exact .base (emits.trans hemits)
  | inner outer known opened emits =>
    rw [List.append_assoc, ← List.flatMap_append]
    exact .inner outer known opened (emits.trans hemits)

end Defines

section Calls

variable {s t : Session} {layouts : List Layout}

theorem emits_next (hs : s.out.Tidy) {call : Call} (hcall : call.isFraming = true)
    (hopen : ∀ id, call ≠ .openBlock id) (hclose : ∀ scope, call ≠ .closeBlock scope) :
    ∃ items, s.Emits (s.next call) items ∧
      items.flatMap Item.layouts = sized call.defines := by
  cases call with
  | openBlock id => exact absurd rfl (hopen id)
  | closeBlock scope => exact absurd rfl (hclose scope)
  | record code operands =>
    obtain ⟨t, hrun, hemits⟩ := emits_record hs code operands
    rw [next, finalState_of_ok hrun]
    exact ⟨_, hemits, rfl⟩
  | define layout types =>
    by_cases ht : types = 0
    · rw [next, finalState_of_error (Emit.define_of_zero ht s), Call.defines, if_pos ht]
      exact ⟨[], .refl hs, rfl⟩
    · obtain ⟨t, hrun, hemits⟩ := emits_define hs layout ht
      rw [next, finalState_of_ok hrun, Call.defines, if_neg ht]
      exact ⟨_, hemits, rfl⟩
  | append step => cases hcall
  | note event => exact ⟨[], ⟨rfl, .refl hs, trivial⟩, rfl⟩

theorem defines_next (hs : s.frames = []) (h : Defines s layouts t) {call : Call}
    (hcall : call.isFraming = true) :
    Defines s (layouts ++ sized call.defines) (t.next call) ∨ (t.next call).Overlong := by
  by_cases hclose : ∃ scope, call = .closeBlock scope
  · obtain ⟨scope, rfl⟩ := hclose
    have hnone : sized (Call.closeBlock scope).defines = [] := rfl
    rw [hnone, List.append_nil]
    cases h with
    | base emits =>
      rw [closeBlock_of_outermost (emits.frames.trans hs)]
      exact .inl (.base emits)
    | inner outer known opened emits =>
      rcases closeBlock_cases outer.tidy known opened emits scope with
        hsame | ⟨block, hblock, -, hemits⟩ | hlong
      · rw [hsame]
        exact .inl (.inner outer known opened emits)
      · -- the block holds what has been defined since it was opened
        obtain ⟨words, -, rfl⟩ := blockOf?_eq_some hblock
        have hadded := outer.add hemits
        rw [List.flatMap_singleton, Item.layouts_block] at hadded
        exact .inl hadded
      · exact .inr hlong
  · refine .inl ?_
    by_cases hopen : ∃ id, call = .openBlock id
    · obtain ⟨id, rfl⟩ := hopen
      have hnone : sized (Call.openBlock id).defines = [] := rfl
      rw [hnone, List.append_nil]
      cases writes_next h.tidy hcall (not_exists.mp hclose) with
      | nothing emits => simpa using h.add emits
      | leaf _ _ called => cases called
      | opens called known opened tidy =>
        cases called
        simpa using Defines.inner h known opened (.refl tidy)
    · obtain ⟨items, hemits, hlayouts⟩ :=
        emits_next h.tidy hcall (not_exists.mp hopen) (not_exists.mp hclose)
      rw [← hlayouts]
      exact h.add hemits

theorem defines_after (hs : s.frames = []) (hsound : t.Sound) (h : Defines s layouts t ∨ t.Overlong)
    {calls : List Call} (hcalls : calls.all Call.isFraming = true) :
    Defines s (layouts ++ sized (calls.flatMap Call.defines)) (t.after calls) ∨
      (t.after calls).Overlong := by
  induction calls generalizing t layouts with
  | nil => simpa [sized] using h
  | cons call calls ih =>
    rw [List.all_cons, Bool.and_eq_true] at hcalls
    have hmoves := moves_next hsound call
    have hnext : Defines s (layouts ++ sized call.defines) (t.next call) ∨
        (t.next call).Overlong := by
      rcases h with h | h
      · exact defines_next hs h hcalls.1
      · exact .inr (hmoves.overlong h)
    have hrest := ih (hmoves.sound hsound) hnext hcalls.2
    simpa [sized] using hrest

theorem defines_of_closed (hs : s.frames = []) (hsound : s.Sound) {calls : List Call}
    (hcalls : calls.all Call.isFraming = true) (hclosed : (s.after calls).frames = []) :
    ∃ items, s.Emits (s.after calls) items ∧
      items.flatMap Item.layouts = sized (calls.flatMap Call.defines) := by
  have hstart : Defines s [] s := .base (.refl hsound.tidy)
  rcases defines_after hs hsound (.inl hstart) hcalls with h | ⟨f, hf, -⟩
  · rw [List.nil_append] at h
    generalize hdefined : sized (calls.flatMap Call.defines) = layouts at h ⊢
    generalize s.after calls = t at h hclosed
    cases h with
    | base emits => exact ⟨_, emits, rfl⟩
    | inner outer known opened emits =>
      cases (Emit.beginBlock_eq known _).symm.trans opened
      rw [emits.frames] at hclosed
      cases hclosed
  · rw [hclosed] at hf
    cases hf

end Calls

theorem all_isFraming_of_inPlace {allowed : BlockKind → Prop} {s : Session} {calls : List Call}
    (h : Along (Call.InPlace allowed) s calls) : calls.all Call.isFraming = true := by
  induction calls generalizing s with
  | nil => rfl
  | cons call calls ih =>
    rw [List.all_cons, h.1.framing, ih h.2]
    rfl

theorem layouts_of_decode (calls : List Call)
    (hcalls : Along (Call.InPlace fun _ ↦ True) (start .empty) calls)
    (hclosed : ((start .empty).after calls).frames = []) :
    ∃ bytes S, ((start .empty).after calls).finish = .ok bytes ∧ Stream.decode bytes = .ok S ∧
      S.declarations.map (·.layout) = sized (calls.flatMap Call.defines) := by
  have hsound := sound_start .empty
  obtain ⟨items, hitems, hstand⟩ := emits_of_closed rfl hsound hcalls hclosed
  obtain ⟨bytes, S, hfinish, hdecode, -⟩ := decode_of_stands hitems hstand
  obtain ⟨defined, hemits, hlayouts⟩ :=
    defines_of_closed rfl hsound (all_isFraming_of_inPlace hcalls) hclosed
  obtain ⟨body, hfinish', hbody⟩ := finish_of_emits hemits
  cases hfinish.symm.trans hfinish'
  obtain ⟨rfl, -⟩ := Decode.items_eq_of_decode hemits.regular hbody hdecode
  exact ⟨_, S, hfinish, hdecode, S.map_layout_declarations.trans hlayouts⟩

theorem decode_of_define (kind : BlockKind) (layout : Layout) {types : UInt32} (ht : types ≠ 0)
    (hfits : Wire.bodyWords kind.abbrevWidth.toNat [.definition (layout.resolve types)] <
      UInt32.size) :
    ∃ t bytes words, Emit.block kind.id (Emit.define layout types) (start .empty) = .ok () t ∧
      t.finish = .ok bytes ∧ Stream.decode bytes =
        .ok ⟨[⟨⟨kind.id, kind.abbrevWidth, words⟩, [.definition (layout.resolve types)]⟩]⟩ := by
  have htidy := (sound_start .empty).tidy
  obtain ⟨t, hrun, hemits⟩ := emits_block htidy
    (fun s hs ↦ emits_define hs layout ht) (BlockKind.blockOf?_of_lt hfits)
  let body : List Item := [.definition (layout.resolve types)]
  let words := (Wire.bodyWords kind.abbrevWidth.toNat body).toUInt32
  let S : Stream := ⟨[⟨⟨kind.id, kind.abbrevWidth, words⟩, body⟩]⟩
  have hdepth : S.depth ≤ Format.maxDepth := show 1 ≤ Format.maxDepth by decide
  obtain ⟨written, hfinish, -, hdecode⟩ := decode_of_emits_blocks (S := S) hemits hdepth
  exact ⟨t, _, words, hrun, hfinish, hdecode⟩

/-- A layout is well formed if it has from one to eight operands and, one way to see it, these
follow the grammar, or, another, each array and each blob stands where it may. A session whose
definitions stand in blocks, and which has closed all of them, can be finished, and what is read
back has the layouts that were given, in order, each with its type indices sized and well formed
just if it was before. So has a block with any one definition in it that is not too long for a
block. -/
theorem wellFormed_recovered :
    (∀ layout : Layout,
      (layout.isWellFormed = true ↔
        1 ≤ layout.length ∧ layout.length ≤ 8 ∧ layout.InGrammar) ∧
      (layout.isWellFormed = true ↔ 1 ≤ layout.length ∧ layout.length ≤ 8 ∧
        ∀ i op, layout[i]? = some op → layout.InPlace i op)) ∧
    (∀ calls, Along (Call.InPlace fun _ ↦ True) (start .empty) calls →
      ((start .empty).after calls).frames = [] →
      ∃ bytes S, ((start .empty).after calls).finish = .ok bytes ∧ Stream.decode bytes = .ok S ∧
        List.Forall₂ (fun d recovered ↦
          recovered = d.1.resolve d.2 ∧ (recovered.isWellFormed = true ↔ d.1.isWellFormed = true))
          (calls.flatMap Call.defines) (S.declarations.map (·.layout))) ∧
    (∀ (kind : BlockKind) (layout : Layout) (types : UInt32), types ≠ 0 →
      Wire.bodyWords kind.abbrevWidth.toNat [.definition (layout.resolve types)] < UInt32.size →
      ∃ t bytes words recovered,
        Emit.block kind.id (Emit.define layout types) (start .empty) = .ok () t ∧
        t.finish = .ok bytes ∧ Stream.decode bytes =
          .ok ⟨[⟨⟨kind.id, kind.abbrevWidth, words⟩, [.definition recovered]⟩]⟩ ∧
        recovered = layout.resolve types ∧
        (recovered.isWellFormed = true ↔ layout.isWellFormed = true)) := by
  refine ⟨fun layout ↦ ?_, fun calls hcalls hclosed ↦ ?_, fun kind layout types ht hfits ↦ ?_⟩
  · rw [← layout.endsWell_iff_inGrammar, ← layout.endsWell_iff_inPlace, and_self,
      layout.isWellFormed_iff]
  · obtain ⟨bytes, S, hfinish, hdecode, hlayouts⟩ := layouts_of_decode calls hcalls hclosed
    refine ⟨bytes, S, hfinish, hdecode, ?_⟩
    rw [hlayouts, sized, List.forall₂_map_right_iff, List.forall₂_same]
    intro d _
    exact ⟨rfl, by rw [Layout.isWellFormed_resolve]⟩
  · obtain ⟨t, bytes, words, hrun, hfinish, hdecode⟩ := decode_of_define kind layout ht hfits
    exact ⟨t, bytes, words, _, hrun, hfinish, hdecode, rfl, by rw [Layout.isWellFormed_resolve]⟩

theorem wellFormed_recovered_mixed :
    let calls : List Call := [.openBlock 17, .define [.literal 3, .array, .typeIndex] 5,
      .define [.blob, .typeIndex] 0, .define [.array, .typeIndex, .char6] 5,
      .closeBlock ⟨⟨.type, 8⟩, 1⟩]
    (∃ bytes S, ((start .empty).after calls).finish = .ok bytes ∧ Stream.decode bytes = .ok S ∧
      (S.declarations.map (·.layout)).map Layout.isWellFormed = [true, false]) ∧
    ∃ t bytes words, Emit.block 17 (Emit.define [.typeIndex, .blob] 1) (start .empty) = .ok () t ∧
      t.finish = .ok bytes ∧ Stream.decode bytes =
        .ok ⟨[⟨⟨17, 4, words⟩, [.definition [.fixed 1, .blob]]⟩]⟩ := by
  intro calls
  obtain ⟨-, hruns, hblocks⟩ := wellFormed_recovered
  obtain ⟨bytes, S, hfinish, hdecode, hall⟩ := hruns calls (by decide +kernel) (by decide +kernel)
  obtain ⟨t, whole, words, recovered, hrun, hfinish', hdecode', rfl, -⟩ :=
    hblocks .type [.typeIndex, .blob] 1 (by decide) (by decide +kernel)
  refine ⟨⟨bytes, S, hfinish, hdecode, ?_⟩, t, whole, words, hrun, hfinish', hdecode'⟩
  have hdefines : calls.flatMap Call.defines =
      [([.literal 3, .array, .typeIndex], 5), ([.array, .typeIndex, .char6], 5)] := rfl
  rw [hdefines] at hall
  generalize S.declarations.map (·.layout) = recovered at hall ⊢
  cases hall with
  | cons first rest =>
    cases rest with
    | cons second rest =>
      cases rest
      rw [first.1, second.1]
      rfl

end Session

end BlockStream
