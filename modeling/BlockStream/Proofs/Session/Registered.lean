import BlockStream.Proofs.Decode.Canonical
import BlockStream.Proofs.Session.Declared
import BlockStream.Proofs.Session.Enclosed
import BlockStream.Proofs.Session.RoundTrip

namespace BlockStream

/-- The registry holds the standard abbreviations for so many types and nothing else. -/
structure Registers (r : Registry) (types : UInt32) : Prop where
  keys : ∀ id, id ∈ r ↔ ∃ kind ∈ BlockKind.registered, kind.id = id
  tables : ∀ kind ∈ BlockKind.registered, r[kind.id]? = some (Session.layoutsOf types kind).toArray
  ids : ∀ a : StandardAbbrev, a.id = Format.firstAbbrev + a.ordinal
  named : ∀ a : StandardAbbrev, ∃ table, r[a.kind.id]? = some table ∧
    table[a.id - Format.firstAbbrev]? = some (a.layout.resolve types)
  wide : ∀ (a : StandardAbbrev) (i : Nat), a.layout[i]? = some .typeIndex →
    ∃ width, (a.layout.resolve types)[i]? = some (.fixed width) ∧
      ∀ index < types.toNat, index < 2 ^ width.toNat

theorem registers_of_registrations {S : Stream} {types : UInt32}
    (h : S.registrations = Registry.ofItems none (Session.declared types)) :
    Registers S.registry types := by
  have hget (id : UInt32) := S.getElem?_registry id
  simp only [h, Session.registered_declared] at hget
  have htable : ∀ kind ∈ BlockKind.registered,
      S.registry[kind.id]? = some (Session.layoutsOf types kind).toArray := by
    intro kind hkind
    have hone : ∀ kind ∈ BlockKind.registered,
      BlockKind.registered.filter (·.id = kind.id) = [kind] ∧ kind.abbrevs ≠ [] := by decide
    obtain ⟨hfilter, hsome⟩ := hone kind hkind
    rw [hget, hfilter, List.flatMap_singleton, Session.layoutsOf,
      if_neg (mt List.map_eq_nil_iff.mp hsome)]
  refine ⟨fun id ↦ ⟨fun hid ↦ ?_, ?_⟩, htable, StandardAbbrev.id_eq, fun a ↦ ?_, fun a i hi ↦ ?_⟩
  · by_contra hnone
    have hfilter : BlockKind.registered.filter (·.id = id) = [] := by
      rw [List.filter_eq_nil_iff]
      intro kind hkind heq
      exact hnone ⟨kind, hkind, of_decide_eq_true heq⟩
    rw [Std.TreeMap.mem_iff_isSome_getElem?, hget, hfilter] at hid
    cases hid
  · rintro ⟨kind, hkind, rfl⟩
    rw [Std.TreeMap.mem_iff_isSome_getElem?, htable kind hkind]
    rfl
  · refine ⟨_, htable a.kind a.kind_registered, ?_⟩
    rw [a.id_eq, Nat.add_sub_cancel_left, List.getElem?_toArray, Session.layoutsOf,
      List.getElem?_map, a.abbrevs_ordinal]
    rfl
  · refine ⟨typeIndexWidth types, ?_, fun index ↦ lt_two_pow_typeIndexWidth⟩
    rw [Layout.resolve, List.getElem?_map, hi]
    rfl

namespace Session

theorem depth_declared (types : UInt32) : Item.depthAll (declared types) = 0 := by
  have hall := depthAll_le (Nat.le_refl 0) fun item (h : item ∈ declared types) ↦ by
    rw [depth_of_flat (small_of_declared h).1]
  omega

theorem exists_blocks_of_stands {allowed : BlockKind → Prop} {items : List Item}
    (h : ∀ item ∈ items, Stands allowed 0 item) :
    ∃ blocks : List Block, blocks.map Block.toItem = items ∧
      ∀ b ∈ blocks, ∃ kind, allowed kind ∧ b.header.id = kind.id := by
  induction items with
  | nil => exact ⟨[], rfl, by simp⟩
  | cons item rest ih =>
    obtain ⟨kind, words, body, hkind, rfl⟩ := (h item List.mem_cons_self).outermost rfl
    obtain ⟨blocks, rfl, hblocks⟩ := ih fun i hi ↦ h i (List.mem_cons_of_mem _ hi)
    refine ⟨⟨⟨kind.id, kind.abbrevWidth, words⟩, body⟩ :: blocks, rfl, fun b hb ↦ ?_⟩
    rcases List.mem_cons.mp hb with rfl | hb
    · exact ⟨kind, hkind, rfl⟩
    · exact hblocks b hb

theorem registrations_eq_nil {blocks : List Block}
    (h : ∀ b ∈ blocks, ∃ kind, kind ≠ BlockKind.blockInfo ∧ b.header.id = kind.id) :
    blocks.flatMap Registry.ofBlock = [] := by
  rw [List.flatMap_eq_nil_iff]
  intro b hb
  obtain ⟨kind, hne, hid⟩ := h b hb
  exact Registry.ofBlock_of_ne fun heq ↦ hne (BlockKind.id_injective (hid.symm.trans heq))

theorem sound_of_blockInfo {s t : Session} (hs : s.Sound) {types : UInt32}
    (h : Emit.blockInfo types s = .ok () t) : t.Sound := by
  have hcalls := finalState_blockInfo ⟨s, #[]⟩ types
  rw [finalState_of_ok h] at hcalls
  rw [hcalls]
  exact sound_after hs _

/-- A session that has written blocks of other kinds, and has closed them, can write a BLOCKINFO
block. If it then writes blocks of other kinds again and closes them, it can be finished, and what
is decoded registers the standard abbreviations for that number of types. -/
theorem blockInfo_registers {types : UInt32} (ht : types ≠ 0) (before : List Call)
    (hbefore : Along (Call.InPlace (· ≠ .blockInfo)) (start .empty) before)
    (hclosed : ((start .empty).after before).frames = []) :
    ∃ t, Emit.blockInfo types ((start .empty).after before) = .ok () t ∧ t.frames = [] ∧
      ∀ later, Along (Call.InPlace (· ≠ .blockInfo)) t later → (t.after later).frames = [] →
        ∃ bytes S, (t.after later).finish = .ok bytes ∧ Stream.decode bytes = .ok S ∧
          Registers S.registry types := by
  have hsound := sound_after (sound_start .empty) before
  obtain ⟨xs, hxs, hfront⟩ := emits_of_closed rfl (sound_start .empty) hbefore hclosed
  obtain ⟨words, hblock⟩ := exists_blockOf?_declared types
  obtain ⟨t, hrun, hinfo⟩ := emits_blockInfo hsound.tidy ht hblock
  have houter : t.frames = [] := hinfo.frames.trans hclosed
  refine ⟨t, hrun, houter, fun later hlater hend ↦ ?_⟩
  obtain ⟨ys, hys, hback⟩ :=
    emits_of_closed houter (sound_of_blockInfo hsound hrun) hlater hend
  obtain ⟨bs, rfl, hbs⟩ := exists_blocks_of_stands hfront
  obtain ⟨cs, rfl, hcs⟩ := exists_blocks_of_stands hback
  let info : Block :=
    ⟨⟨BlockKind.blockInfo.id, BlockKind.blockInfo.abbrevWidth, words⟩, declared types⟩
  let S : Stream := ⟨bs ++ [info] ++ cs⟩
  have hemits : (start .empty).Emits (t.after later) S.items := by
    have hall := (hxs.trans hinfo).trans hys
    rwa [show [Item.block _ _] = [info].map Block.toItem from rfl, ← List.map_append,
      ← List.map_append] at hall
  have hdepth : S.depth ≤ Format.maxDepth := by
    have hfront := depthAll_le (Nat.zero_le _) fun item hitem ↦ (hfront item hitem).shallow
    have hback := depthAll_le (Nat.zero_le _) fun item hitem ↦ (hback item hitem).shallow
    have hinfo : Item.depthAll [info.toItem] ≤ Format.maxDepth := by
      simp [Item.depthAll, Item.depth, Block.toItem, info, depth_declared, Format.maxDepth]
    rw [Stream.depth, Stream.items, List.map_append, List.map_append, Item.depthAll_append,
      Item.depthAll_append]
    exact Nat.max_le.mpr ⟨Nat.max_le.mpr ⟨by omega, hinfo⟩, by omega⟩
  obtain ⟨body, hfinish, hbody⟩ := finish_of_emits_blocks hemits
  have hdecode := Decode.decode_of_ofItems hemits.regular hbody
  rw [if_pos hdepth] at hdecode
  refine ⟨_, S, hfinish, hdecode, registers_of_registrations ?_⟩
  rw [Stream.registrations, List.flatMap_append, List.flatMap_append, registrations_eq_nil hbs,
    registrations_eq_nil hcs, List.flatMap_singleton, List.nil_append, List.append_nil]
  exact if_pos rfl

theorem blockInfo_registers_between :
    ∃ t bytes S,
      Emit.blockInfo 5 ((start .empty).after
        [.openBlock 8, .record 1 [2], .closeBlock ⟨⟨.module, 8⟩, 1⟩]) = .ok () t ∧
      (t.after [.openBlock 1]).finish = .ok bytes ∧ Stream.decode bytes = .ok S ∧
      Registers S.registry 5 := by
  have hopen {id : UInt32} (hid : id ≠ BlockKind.blockInfo.id) (kind : BlockKind)
      (h : Call.openBlock id = .openBlock kind.id) : kind ≠ .blockInfo := by
    rintro rfl
    exact hid (Call.openBlock.inj h)
  have hbefore : Along (Call.InPlace (· ≠ .blockInfo)) (start .empty)
      [.openBlock 8, .record 1 [2], .closeBlock ⟨⟨.module, 8⟩, 1⟩] :=
    ⟨⟨rfl, fun h ↦ (by cases h), fun _ ↦ hopen (by decide), by decide +kernel⟩,
      ⟨rfl, fun _ ↦ by decide +kernel, fun _ _ h ↦ (by cases h), by decide +kernel⟩,
      ⟨rfl, fun h ↦ (by cases h), fun _ _ h ↦ (by cases h), by decide +kernel⟩, trivial⟩
  obtain ⟨t, hrun, hclosed, hlater⟩ := blockInfo_registers (show (5 : UInt32) ≠ 0 by decide)
    [.openBlock 8, .record 1 [2], .closeBlock ⟨⟨.module, 8⟩, 1⟩] hbefore (by decide +kernel)
  -- a block of no known kind is refused
  have hsame : (t.next (.openBlock 1)).frames = [] := by
    rw [next, finalState_of_error (Emit.beginBlock_of_unknown (by decide))]
    exact hclosed
  have hshallow : (t.next (.openBlock 1)).depth ≤ Format.maxDepth := by
    rw [depth, hsame]
    decide
  obtain ⟨bytes, S, hfinish, hdecode, hregisters⟩ := hlater [.openBlock 1]
    ⟨⟨rfl, fun h ↦ (by cases h), fun _ ↦ hopen (by decide), hshallow⟩, trivial⟩ hsame
  exact ⟨t, bytes, S, hrun, hfinish, hdecode, hregisters⟩

end Session

end BlockStream
