import BlockStream.Proofs.Session.Registered

namespace BlockStream

theorem Stream.exists_table_of_blockInfo {S : Stream} {b : Block} (hb : b ∈ S.blocks)
    {types : UInt32} (hid : b.header.id = BlockKind.blockInfo.id)
    (hitems : b.items = Session.declared types) {kind : BlockKind}
    (hkind : kind ∈ BlockKind.registered) :
    ∃ table, S.registry[kind.id]? = some table ∧
      Session.layoutsOf types kind <:+: table.toList := by
  obtain ⟨front, back, hblocks⟩ := List.append_of_mem hb
  have hone : ∀ kind ∈ BlockKind.registered,
    BlockKind.registered.filter (·.id = kind.id) = [kind] ∧ kind.abbrevs ≠ [] := by decide
  obtain ⟨hfilter, hsome⟩ := hone kind hkind
  have hown : Known.layouts (Registry.ofBlock b) kind.id = Session.layoutsOf types kind := by
    rw [Registry.ofBlock, if_pos hid, hitems, Session.registered_declared, hfilter,
      List.flatMap_singleton]
  have hall : Known.layouts S.registrations kind.id =
      Known.layouts (front.flatMap Registry.ofBlock) kind.id ++
        Session.layoutsOf types kind ++ Known.layouts (back.flatMap Registry.ofBlock) kind.id := by
    rw [Stream.registrations, hblocks, List.flatMap_append, List.flatMap_cons,
      Known.layouts_append, Known.layouts_append, hown, List.append_assoc]
  have hne : Known.layouts S.registrations kind.id ≠ [] := by
    simpa [hall, Session.layoutsOf] using fun _ hnil ↦ absurd hnil hsome
  refine ⟨_, by rw [Stream.getElem?_registry, if_neg hne], ?_⟩
  rw [hall]
  exact List.infix_append ..

namespace Session

theorem decode_of_stands {allowed : BlockKind → Prop} {t : Session} {items : List Item}
    (hemits : (start .empty).Emits t items) (hstand : ∀ item ∈ items, Stands allowed 0 item) :
    ∃ bytes S, t.finish = .ok bytes ∧ Stream.decode bytes = .ok S ∧ S.items = items := by
  obtain ⟨blocks, rfl, -⟩ := exists_blocks_of_stands hstand
  have hdepth := depthAll_le (Nat.zero_le _) fun item hitem ↦ (hstand item hitem).shallow
  rw [Nat.zero_add] at hdepth
  obtain ⟨body, hfinish, -, hdecode⟩ := decode_of_emits_blocks (S := ⟨blocks⟩) hemits hdepth
  exact ⟨_, _, hfinish, hdecode, rfl⟩

theorem registrations_of_stands {S : Stream}
    (h : ∀ item ∈ S.items, Stands (· ≠ .blockInfo) 0 item) : S.registrations = [] := by
  refine registrations_eq_nil fun b hb ↦ ?_
  obtain ⟨kind, words, body, hkind, hitem⟩ := (h _ (List.mem_map_of_mem hb)).outermost rfl
  exact ⟨kind, hkind, by rw [(Item.block.inj hitem).1]⟩

theorem mem_blocks_of_mem_items {S : Stream} {h : Header} {items : List Item}
    (hitem : Item.block h items ∈ S.items) : ⟨h, items⟩ ∈ S.blocks := by
  obtain ⟨b, hb, heq⟩ := List.mem_map.mp hitem
  cases heq
  exact hb

/-- A session with all blocks closed can write a BLOCKINFO block. Whatever blocks it has written
before and writes later, if it closes them it can be finished, and what is decoded registers the
abbreviations of each kind together, as they are declared for that number of types. -/
theorem blockInfo_registers_outermost {types : UInt32} (ht : types ≠ 0) (before : List Call)
    (hbefore : Along (Call.InPlace fun _ ↦ True) (start .empty) before)
    (hclosed : ((start .empty).after before).frames = []) :
    ∃ t, Emit.blockInfo types ((start .empty).after before) = .ok () t ∧ t.frames = [] ∧
      ∀ later, Along (Call.InPlace fun _ ↦ True) t later → (t.after later).frames = [] →
        ∃ bytes S, (t.after later).finish = .ok bytes ∧ Stream.decode bytes = .ok S ∧
          ∀ kind ∈ BlockKind.registered, ∃ table, S.registry[kind.id]? = some table ∧
            layoutsOf types kind <:+: table.toList := by
  have hsound := sound_after (sound_start .empty) before
  obtain ⟨xs, hxs, hfront⟩ := emits_of_closed rfl (sound_start .empty) hbefore hclosed
  obtain ⟨words, hblock⟩ := exists_blockOf?_declared types
  obtain ⟨t, hrun, hinfo⟩ := emits_blockInfo hsound.tidy ht hblock
  have houter : t.frames = [] := hinfo.frames.trans hclosed
  refine ⟨t, hrun, houter, fun later hlater hend ↦ ?_⟩
  obtain ⟨ys, hys, hback⟩ :=
    emits_of_closed houter (sound_of_blockInfo hsound hrun) hlater hend
  have hstands : Stands (fun _ ↦ True) 0 (.block
      ⟨BlockKind.blockInfo.id, BlockKind.blockInfo.abbrevWidth, words⟩ (declared types)) := by
    refine ⟨fun _ ↦ ⟨.blockInfo, words, declared types, trivial, rfl⟩, ?_⟩
    rw [Item.depth, depth_declared]
    decide
  have hall := (hxs.trans hinfo).trans hys
  obtain ⟨bytes, S, hfinish, hdecode, hitems⟩ := decode_of_stands hall <| by
    intro item hitem
    simp only [List.mem_append, List.mem_singleton] at hitem
    rcases hitem with (hitem | rfl) | hitem
    · exact hfront item hitem
    · exact hstands
    · exact hback item hitem
  refine ⟨bytes, S, hfinish, hdecode, fun kind hkind ↦ ?_⟩
  have hmem : .block ⟨BlockKind.blockInfo.id, BlockKind.blockInfo.abbrevWidth, words⟩
      (declared types) ∈ S.items := by
    rw [hitems]
    simp
  exact S.exists_table_of_blockInfo (mem_blocks_of_mem_items hmem) rfl rfl hkind

theorem blockInfo_registers_behind_own :
    let before : List Call := [.openBlock 0, .record 1 [11], .define [.literal 7] 1,
      .closeBlock ⟨⟨.blockInfo, 8⟩, 1⟩]
    ∃ t bytes S, Emit.blockInfo 5 ((start .empty).after before) = .ok () t ∧
      (t.after [.openBlock 1]).finish = .ok bytes ∧ Stream.decode bytes = .ok S ∧
      ∀ kind ∈ BlockKind.registered, ∃ table, S.registry[kind.id]? = some table ∧
        layoutsOf 5 kind <:+: table.toList := by
  intro before
  obtain ⟨t, hrun, hclosed, hlater⟩ :=
    blockInfo_registers_outermost (show (5 : UInt32) ≠ 0 by decide) before (by decide +kernel)
      (by decide +kernel)
  -- a block of no known kind is refused
  have hsame : (t.next (.openBlock 1)).frames = [] := by
    rw [next, finalState_of_error (Emit.beginBlock_of_unknown (by decide))]
    exact hclosed
  have hshallow : (t.next (.openBlock 1)).depth ≤ Format.maxDepth := by
    rw [depth, hsame]
    decide
  obtain ⟨bytes, S, hread⟩ := hlater [.openBlock 1]
    ⟨⟨rfl, fun h ↦ (by cases h), fun _ _ _ ↦ trivial, hshallow⟩, trivial⟩ hsame
  exact ⟨t, bytes, S, hrun, hread⟩

/-- Inside another block it does not: a session that writes a BLOCKINFO block into a module block
registers nothing. -/
theorem not_blockInfo_registers_anywhere :
    ¬ ∀ types : UInt32, types ≠ 0 → ∀ before,
      Along (Call.InPlace fun _ ↦ True) (start .empty) before →
      ∃ t, Emit.blockInfo types ((start .empty).after before) = .ok () t ∧
        ∀ later, Along (Call.InPlace fun _ ↦ True) t later → (t.after later).frames = [] →
          ∃ bytes S, (t.after later).finish = .ok bytes ∧ Stream.decode bytes = .ok S ∧
            ∀ kind ∈ BlockKind.registered, ∃ table, S.registry[kind.id]? = some table ∧
              layoutsOf types kind <:+: table.toList := by
  intro h
  have hstart := (sound_start .empty).tidy
  have hknown := BlockKind.ofId?_id .module
  obtain ⟨scope, u, hopen, htidy⟩ := Emit.exists_beginBlock hstart hknown
  obtain ⟨t, hrun, hlater⟩ := h 1 (by decide) [.openBlock BlockKind.module.id] (by decide +kernel)
  let info : Item := .block ⟨BlockKind.blockInfo.id, BlockKind.blockInfo.abbrevWidth,
    (Wire.bodyWords BlockKind.blockInfo.abbrevWidth.toNat (declared 1)).toUInt32⟩ (declared 1)
  let outer : Item := .block ⟨BlockKind.module.id, BlockKind.module.abbrevWidth,
    (Wire.bodyWords BlockKind.module.abbrevWidth.toNat [info]).toUInt32⟩ [info]
  have hinner : BlockKind.blockInfo.blockOf? (declared 1) = some info :=
    BlockKind.blockOf?_of_lt (by decide +kernel)
  have houter : BlockKind.module.blockOf? [info] = some outer :=
    BlockKind.blockOf?_of_lt (by decide +kernel)
  rw [after_cons, after_nil, next, finalState_of_ok hopen] at hrun
  obtain ⟨t', hrun', hinfo⟩ := emits_blockInfo htidy (by decide : (1 : UInt32) ≠ 0) hinner
  cases hrun.symm.trans hrun'
  obtain ⟨v, hclose, hmodule⟩ := emits_of_endBlock hstart hknown hopen hinfo houter
  have hend : t.next (.closeBlock scope) = v := finalState_of_ok hclose
  have hclosed : v.frames = [] := hmodule.frames
  have hstands : ∀ item ∈ [outer], Stands (· ≠ .blockInfo) 0 item := by
    intro item hitem
    rw [List.mem_singleton.mp hitem]
    exact ⟨fun _ ↦ ⟨.module, _, _, (by decide : BlockKind.module ≠ .blockInfo), rfl⟩,
      by decide +kernel⟩
  obtain ⟨bytes, S, hfinish, hdecode, hitems⟩ := decode_of_stands hmodule hstands
  have hinplace : Call.InPlace (fun _ ↦ True) t (.closeBlock scope) :=
    ⟨rfl, fun h ↦ (by cases h), fun _ _ _ ↦ trivial, by rw [hend, depth, hclosed]; decide⟩
  have hlater := hlater [.closeBlock scope] ⟨hinplace, trivial⟩
  rw [after_cons, after_nil, hend] at hlater
  obtain ⟨bytes', S', hfinish', hdecode', htables⟩ := hlater hclosed
  cases hfinish.symm.trans hfinish'
  cases hdecode.symm.trans hdecode'
  obtain ⟨table, htable, -⟩ := htables .constants (by decide)
  rw [Stream.getElem?_registry, registrations_of_stands (hitems ▸ hstands)] at htable
  cases htable

end Session

end BlockStream
