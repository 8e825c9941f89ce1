import BlockStream.Proofs.Session.Framing
import BlockStream.Proofs.Session.Outline

namespace BlockStream.Session

/-- The session `t` is `s` with these items behind its output. -/
structure Emits (s t : Session) (items : List Item) : Prop where
  frames : t.frames = s.frames
  adds : s.out.Adds (Wire.ofItems s.width s.out.bitLen items) t.out
  regular : Wire.AllRegular items

theorem width_congr {s t : Session} (h : t.frames = s.frames) : t.width = s.width := by
  rw [width, width, innermost, innermost, h]

theorem depth_congr {s t : Session} (h : t.frames = s.frames) : t.depth = s.depth := by
  rw [depth, depth, h]

namespace Emits

variable {s t u : Session} {xs ys : List Item}

theorem refl (hs : s.out.Tidy) : s.Emits s [] := ⟨rfl, .refl hs, trivial⟩

theorem trans (h : s.Emits t xs) (k : t.Emits u ys) : s.Emits u (xs ++ ys) := by
  refine ⟨k.frames.trans h.frames, ?_, ?_⟩
  · have hadds := h.adds.trans k.adds
    rwa [width_congr h.frames, h.adds.bitLen_eq, ← Wire.ofItems_append] at hadds
  · exact Wire.allRegular_append.mpr ⟨h.regular, k.regular⟩

theorem of_adds {item : Item} (hframes : t.frames = s.frames)
    (hadds : s.out.Adds (Wire.ofItem s.width s.out.bitLen item) t.out)
    (hregular : Wire.Regular item) : s.Emits t [item] :=
  ⟨hframes, by rwa [Wire.ofItems_singleton], hregular, trivial⟩

end Emits

section Leaves

variable {s : Session} (hs : s.out.Tidy)
include hs

theorem emits_record (code : UInt32) (operands : List UInt64) :
    ∃ t, Emit.record code operands s = .ok () t ∧
      s.Emits t [.record code.toUInt64 operands] :=
  ⟨_, rfl, .of_adds rfl (Buffer.adds_pushAll hs _) trivial⟩

theorem emits_define (layout : Layout) {types : UInt32} (ht : types ≠ 0) :
    ∃ t, Emit.define layout types s = .ok () t ∧
      s.Emits t [.definition (layout.resolve types)] := by
  refine ⟨_, Emit.define_of_ne_zero ht s, .of_adds rfl (Buffer.adds_pushAll hs _) ?_⟩
  intro hmem
  obtain ⟨op, -, hop⟩ := List.mem_map.mp hmem
  cases op <;> cases hop

theorem emits_forM {α : Type} {f : α → Emit Unit} {g : α → List Item} (xs : List α)
    (h : ∀ a ∈ xs, ∀ s : Session, s.out.Tidy → ∃ t, f a s = .ok () t ∧ s.Emits t (g a)) :
    ∃ t, xs.forM f s = .ok () t ∧ s.Emits t (xs.flatMap g) := by
  induction xs generalizing s with
  | nil => exact ⟨s, rfl, .refl hs⟩
  | cons x xs ih =>
    obtain ⟨t, hx, hemits⟩ := h x List.mem_cons_self s hs
    obtain ⟨u, hxs, hemits'⟩ := ih hemits.adds.tidy fun a ha ↦ h a (List.mem_cons_of_mem _ ha)
    exact ⟨u, (bind_of_ok hx).trans hxs, hemits.trans hemits'⟩

theorem emits_declareAll {types : UInt32} (ht : types ≠ 0) :
    ∃ t, Emit.declareAll types s = .ok () t ∧ s.Emits t (declared types) := by
  refine emits_forM hs _ ?_
  intro kind _ s hs
  obtain ⟨t, hrecord, hemits⟩ := emits_record hs BlockInfoCode.setBid.code [kind.id.toUInt64]
  obtain ⟨u, hdefine, hemits'⟩ := emits_forM hemits.adds.tidy kind.abbrevs
    fun a _ s hs ↦ emits_define hs a.layout ht
  refine ⟨u, (bind_of_ok hrecord).trans hdefine, ?_⟩
  rw [List.map_eq_flatMap]
  exact hemits.trans hemits'

end Leaves

section Blocks

theorem blockOf?_eq_some {kind : BlockKind} {body : List Item} {block : Item}
    (h : kind.blockOf? body = some block) :
    ∃ words : UInt32, words.toNat = Wire.bodyWords kind.abbrevWidth.toNat body ∧
      block = .block ⟨kind.id, kind.abbrevWidth, words⟩ body := by
  unfold BlockKind.blockOf? at h
  dsimp only at h
  split at h
  · rename_i hlt
    cases h
    exact ⟨_, UInt32.toNat_ofNat_of_lt' hlt, rfl⟩
  · cases h

theorem regular_block (kind : BlockKind) {body : List Item} {words : UInt32}
    (hwords : words.toNat = Wire.bodyWords kind.abbrevWidth.toNat body)
    (hbody : Wire.AllRegular body) :
    Wire.Regular (.block ⟨kind.id, kind.abbrevWidth, words⟩ body) :=
  ⟨kind.two_le_abbrevWidth, kind.abbrevWidth_le, hwords, hbody⟩

/-- A block that has been opened and has taken items is closed by its scope, unless it has become
too long. -/
theorem endBlock_of_emits {s t u : Session} (hs : s.out.Tidy) {id : UInt32} {kind : BlockKind}
    (hk : BlockKind.ofId? id = some kind) {scope : Scope}
    (hopen : Emit.beginBlock id s = .ok scope t) {body : List Item} (hbody : t.Emits u body) :
    ∃ out, u.out.Adds (Wire.closing u.out.bitLen kind.abbrevWidth.toNat) out ∧
      8 * (scope.frame.lengthOffset + 4) + 32 * Wire.bodyWords kind.abbrevWidth.toNat body =
        out.bitLen ∧
      (∀ words : UInt32, words.toNat = Wire.bodyWords kind.abbrevWidth.toNat body →
        Emit.endBlock scope u = .ok () ⟨out.overwrite scope.frame.lengthOffset words, s.frames,
          u.log.push (.exited kind words)⟩) ∧
      (UInt32.size ≤ Wire.bodyWords kind.abbrevWidth.toNat body →
        ∃ e, Emit.endBlock scope u = .error e { u with out }) := by
  obtain ⟨out, offset, log, hrun, hadds, hbehind⟩ := Emit.beginBlock_of_kind hs hk
  cases hrun.symm.trans hopen
  have hframes := hbody.frames
  have hinner := hbody.adds
  have hwidth : u.width = kind.abbrevWidth.toNat := width_congr hframes
  have hlen := hadds.bitLen_eq
  have hopening := Wire.opening_aligned s.out.bitLen s.width id kind.abbrevWidth
  rw [List.length_append, length_bitsOf] at hlen
  change out.Adds (Wire.ofItems kind.abbrevWidth.toNat out.bitLen body) u.out at hinner
  have hlen' := hinner.bitLen_eq
  obtain ⟨out', hend, hfits, hlarge⟩ := Emit.endBlock_of_match hinner.tidy
    ⟨⟨kind, offset⟩, s.depth + 1⟩ hframes (by rw [depth, depth, hframes]; rfl)
    (by dsimp only; omega) (by dsimp only; omega)
  rw [hwidth] at hend
  -- the words from behind the length word to the end of the padding
  have hcount : 8 * (offset + 4) + 32 * Wire.bodyWords kind.abbrevWidth.toNat body =
      out'.bitLen := by
    have hbody' := Wire.length_body kind.abbrevWidth.toNat body
    have hsame := Wire.ofItems_congr (show 0 % 32 = out.bitLen % 32 by omega)
      kind.abbrevWidth.toNat body
    rw [hsame, Wire.closing_congr (q := u.out.bitLen) (by omega), List.length_append] at hbody'
    rw [hend.bitLen_eq]
    omega
  exact ⟨out', hend, hcount, fun words hwords ↦ hfits words (hwords ▸ hcount),
    fun hsize ↦ hlarge (by dsimp only; omega)⟩

theorem emits_of_endBlock {s t u : Session} (hs : s.out.Tidy) {id : UInt32} {kind : BlockKind}
    (hk : BlockKind.ofId? id = some kind) {scope : Scope}
    (hopen : Emit.beginBlock id s = .ok scope t) {body : List Item} (hbody : t.Emits u body)
    {block : Item} (hblock : kind.blockOf? body = some block) :
    ∃ v, Emit.endBlock scope u = .ok () v ∧ s.Emits v [block] := by
  obtain ⟨words, hwords, rfl⟩ := blockOf?_eq_some hblock
  obtain ⟨out', hend, hcount, hfits, -⟩ := endBlock_of_emits hs hk hopen hbody
  have hclose := hfits words hwords
  obtain ⟨out, offset, log, hrun, hadds, hbehind⟩ := Emit.beginBlock_of_kind hs hk
  cases hrun.symm.trans hopen
  obtain rfl := BlockKind.id_of_ofId? hk
  have hinner := hbody.adds
  have hlen := hadds.bitLen_eq
  rw [List.length_append, length_bitsOf] at hlen
  change out.Adds (Wire.ofItems kind.abbrevWidth.toNat out.bitLen body) u.out at hinner
  have hlen' := hinner.bitLen_eq
  refine ⟨_, hclose, .of_adds rfl ?_ (regular_block kind hwords hbody.regular)⟩
  dsimp only at hcount
  have hword : offset + 4 ≤ out'.bytes.size := hend.tidy.word_inside (by omega)
  have hall := (hadds.trans (hinner.trans hend)).overwrite hword words hbehind
  have hfront : s.out.bitLen + (Wire.opening s.out.bitLen s.width kind.id kind.abbrevWidth ++
      bitsOf 32 words.toNat).length = out.bitLen := by
    rw [List.length_append, length_bitsOf]
    omega
  simp only [Wire.ofItem]
  rw [hfront, List.length_append, ← Nat.add_assoc, hfront, ← hlen', List.append_assoc]
  exact hall

theorem emits_block {s : Session} (hs : s.out.Tidy) {kind : BlockKind} {body : Emit Unit}
    {items : List Item}
    (hbody : ∀ t : Session, t.out.Tidy → ∃ u, body t = .ok () u ∧ t.Emits u items)
    {block : Item} (hblock : kind.blockOf? items = some block) :
    ∃ t, Emit.block kind.id body s = .ok () t ∧ s.Emits t [block] := by
  have hk := BlockKind.ofId?_id kind
  obtain ⟨scope, t, hopen, htidy⟩ := Emit.exists_beginBlock hs hk
  obtain ⟨u, hrun, hemits⟩ := hbody t htidy
  obtain ⟨v, hclose, hwhole⟩ := emits_of_endBlock hs hk hopen hemits hblock
  exact ⟨v, (bind_of_ok hopen).trans ((bind_of_ok hrun).trans hclose), hwhole⟩

theorem emits_blockInfo {s : Session} (hs : s.out.Tidy) {types : UInt32} (ht : types ≠ 0)
    {block : Item} (hblock : BlockKind.blockInfo.blockOf? (declared types) = some block) :
    ∃ t, Emit.blockInfo types s = .ok () t ∧ s.Emits t [block] := by
  let noted : Session := { s with log := s.log.push (.registering types) }
  have hs' : noted.out.Tidy := hs
  obtain ⟨t, hrun, hframes, hadds, hregular⟩ :=
    emits_block hs' (fun t ht' ↦ emits_declareAll ht' ht) hblock
  exact ⟨t, (Emit.blockInfo_of_ne_zero ht s).trans hrun, hframes, hadds, hregular⟩

end Blocks

end BlockStream.Session
