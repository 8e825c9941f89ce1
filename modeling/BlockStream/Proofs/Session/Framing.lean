import BlockStream.Session
import BlockStream.Proofs.Buffer.Sized
import BlockStream.Proofs.Wire.Canonical

namespace BlockStream

theorem BlockKind.abbrevWidth_le (kind : BlockKind) :
    kind.abbrevWidth.toNat ≤ Format.maxAbbrevWidth := by
  cases kind <;> decide

theorem Session.width_pos (s : Session) : 0 < s.width := by
  unfold width
  split
  · rename_i kind _
    exact Nat.lt_of_lt_of_le (by decide) kind.two_le_abbrevWidth
  · decide

namespace Emit

theorem onBuffer_of_ok {α : Type} {x : Write α} {s : Session} {a : α} {b : Buffer}
    (h : x s.out = .ok a b) : onBuffer x s = .ok a { s with out := b } := by
  rw [onBuffer, h]

theorem finalState_onBuffer {α : Type} (x : Write α) (s : Session) :
    finalState (onBuffer x s) = { s with out := finalState (x s.out) } := by
  cases h : x s.out <;> rw [onBuffer, h] <;> rfl

theorem onBuffer_byteOffset {s : Session} (h : s.out.bitLen % 8 = 0) :
    onBuffer Write.byteOffset s = .ok (s.out.bitLen / 8) s :=
  onBuffer_of_ok (by rw [Write.byteOffset, if_pos h])

theorem require_of_pos {p : Prop} [Decidable p] {e : EncodeError} {s : Session} (hp : p) :
    require p e s = .ok () s := by
  rw [require, if_pos hp]
  rfl

theorem require_of_neg {p : Prop} [Decidable p] {e : EncodeError} {s : Session} (hp : ¬ p) :
    require p e s = .error (.error e) s := by
  rw [require, if_neg hp]
  rfl

theorem difference_of_le {m n : Nat} (h : n ≤ m) (s : Session) :
    (difference m n : Emit Nat) s = .ok (m - n) s := by
  rw [difference, if_pos h]
  rfl

theorem define_of_ne_zero {layout : Layout} {types : UInt32} (ht : types ≠ 0) (s : Session) :
    define layout types s =
      .ok () { s with out := s.out.pushAll (Wire.definition s.width (layout.resolve types)) } :=
  bind_of_ok (require_of_pos ht)

theorem define_of_zero {layout : Layout} {types : UInt32} (ht : types = 0) (s : Session) :
    define layout types s = .error (.error .emptyTypeTable) s :=
  bind_of_error (require_of_neg fun hne ↦ hne ht)

abbrev declareAll (types : UInt32) : Emit Unit :=
  BlockKind.registered.forM fun kind ↦ do
    record BlockInfoCode.setBid.code [kind.id.toUInt64]
    kind.abbrevs.forM fun a ↦ define a.layout types

theorem blockInfo_of_zero {types : UInt32} (ht : types = 0) (s : Session) :
    blockInfo types s = .error (.error .emptyTypeTable) s :=
  bind_of_error (require_of_neg fun hne ↦ hne ht)

theorem blockInfo_of_ne_zero {types : UInt32} (ht : types ≠ 0) (s : Session) :
    blockInfo types s = block BlockKind.blockInfo.id (declareAll types)
      { s with log := s.log.push (.registering types) } :=
  (bind_of_ok (require_of_pos ht)).trans (bind_of_ok rfl)

/-- The buffer of a session in front of the length word of a block that is opened. -/
def headed (s : Session) (id : UInt32) (kind : BlockKind) : Buffer :=
  (s.out.pushAll (Wire.enter s.width id kind.abbrevWidth)).align32

/-- The buffer of a session behind the end of its innermost block. -/
def ended (s : Session) : Buffer := (s.out.pushAll (Wire.exit s.width)).align32

/-- The bytes between the length word of the innermost block and its end. -/
def bodyBytes (s : Session) (lengthOffset : Nat) : Nat :=
  (ended s).bitLen / 8 - (lengthOffset + 4)

theorem beginBlock_eq {id : UInt32} {kind : BlockKind} (hk : BlockKind.ofId? id = some kind)
    (s : Session) :
    beginBlock id s =
      let offset := (headed s id kind).bitLen / 8
      .ok ⟨⟨kind, offset⟩, s.depth + 1⟩
        ⟨(headed s id kind).push ⟨32, 0⟩, ⟨kind, offset⟩ :: s.frames,
          s.log.push (.entered kind offset)⟩ := by
  have haligned := Buffer.bitLen_align32_mod
    (s.out.pushAll (Wire.enter s.width id kind.abbrevWidth))
  rw [beginBlock, hk]
  refine (bind_of_ok rfl).trans ((bind_of_ok rfl).trans ?_)
  refine (bind_of_ok (onBuffer_byteOffset (by dsimp only; omega))).trans ?_
  refine (bind_of_ok rfl).trans ((bind_of_ok rfl).trans ((bind_of_ok rfl).trans ?_))
  exact bind_of_ok rfl

theorem beginBlock_of_unknown {s : Session} {id : UInt32} (hk : BlockKind.ofId? id = none) :
    beginBlock id s =
      .error (.error (.unknownBlock id)) { s with log := s.log.push (.unknownBlock id) } := by
  rw [beginBlock, hk]
  exact bind_of_ok rfl

theorem endBlock_of_mismatch {s : Session} {scope : Scope}
    (h : ¬ (s.frames.head? = some scope.frame ∧ scope.depth = s.depth)) :
    endBlock scope s = .error (.error (.mismatchedEndBlock s.innermost scope.frame.kind)) s := by
  obtain ⟨⟨kind, offset⟩, depth⟩ := scope
  exact (bind_of_ok rfl).trans (bind_of_error (require_of_neg h))

/-- Closing the innermost block with its own scope can only fail for the length of the body. -/
theorem endBlock_eq {s : Session} (hsized : s.out.Sized) (scope : Scope) {rest : List Frame}
    (hframes : s.frames = scope.frame :: rest) (hdepth : scope.depth = s.depth)
    (hin : 8 * (scope.frame.lengthOffset + 4) ≤ s.out.bitLen) :
    endBlock scope s =
      let bytes := bodyBytes s scope.frame.lengthOffset
      if bytes / 4 < UInt32.size then
        .ok () ⟨(ended s).overwrite scope.frame.lengthOffset (bytes / 4).toUInt32, rest,
          s.log.push (.exited scope.frame.kind (bytes / 4).toUInt32)⟩
      else .error (.error (.blockTooLarge scope.frame.kind bytes)) { s with out := ended s } := by
  obtain ⟨⟨kind, offset⟩, depth⟩ := scope
  dsimp only at hframes hdepth hin ⊢
  have haligned := Buffer.bitLen_align32_mod (s.out.pushAll (Wire.exit s.width))
  have hgrows := (Buffer.grows_pushAll s.out (Wire.exit s.width)).trans (Buffer.grows_align32 _)
  have hend : 8 * (offset + 4) ≤ (ended s).bitLen := Nat.le_trans hin hgrows.bitLen_le
  have hpatch : offset + 4 ≤ (ended s).bytes.size := (hgrows.sized hsized).word_inside hend
  -- the steps up to the check of the length
  have hrun : endBlock ⟨⟨kind, offset⟩, depth⟩ s = (do
      require (bodyBytes s offset / 4 < UInt32.size) (.blockTooLarge kind (bodyBytes s offset))
      let words := (bodyBytes s offset / 4).toUInt32
      onBuffer (Write.patch offset words)
      modify fun s ↦ { s with frames := s.frames.tail }
      note (.exited kind words) : Emit Unit) { s with out := ended s } := by
    rw [endBlock]
    refine (bind_of_ok rfl).trans ?_
    refine (bind_of_ok (require_of_pos ⟨by rw [hframes]; rfl, hdepth⟩)).trans ?_
    refine (bind_of_ok rfl).trans ((bind_of_ok rfl).trans ?_)
    refine (bind_of_ok (onBuffer_byteOffset (by dsimp only; omega))).trans ?_
    exact bind_of_ok (difference_of_le (show offset + 4 ≤ (ended s).bitLen / 8 by omega) _)
  rw [hrun]
  split
  · rename_i hfits
    refine (bind_of_ok (require_of_pos hfits)).trans ?_
    refine (bind_of_ok (onBuffer_of_ok (by rw [Write.patch, if_pos hpatch]))).trans ?_
    refine (bind_of_ok rfl).trans ?_
    rw [hframes]
    rfl
  · rename_i hlarge
    exact bind_of_error (require_of_neg hlarge)

variable {s : Session} (hs : s.out.Tidy)
include hs

theorem beginBlock_of_kind {id : UInt32} {kind : BlockKind} (hk : BlockKind.ofId? id = some kind) :
    ∃ out offset log,
      beginBlock id s = .ok ⟨⟨kind, offset⟩, s.depth + 1⟩ ⟨out, ⟨kind, offset⟩ :: s.frames, log⟩ ∧
      s.out.Adds (Wire.opening s.out.bitLen s.width id kind.abbrevWidth ++ bitsOf 32 0) out ∧
      8 * offset = s.out.bitLen +
        (Wire.opening s.out.bitLen s.width id kind.abbrevWidth).length := by
  have h₁ := Buffer.adds_pushAll hs (Wire.enter s.width id kind.abbrevWidth)
  have h₂ := h₁.trans (Buffer.adds_align32 h₁.tidy)
  have h₃ := h₂.trans (Buffer.adds_push h₂.tidy ⟨32, 0⟩)
  have haligned := Buffer.align32_aligned h₁.tidy
  rw [h₁.bitLen_eq] at h₂ h₃
  have hlen : (headed s id kind).bitLen = s.out.bitLen +
      (Wire.opening s.out.bitLen s.width id kind.abbrevWidth).length := h₂.bitLen_eq
  refine ⟨_, _, _, beginBlock_eq hk s, h₃, ?_⟩
  rw [← hlen]
  dsimp only [headed]
  omega

theorem exists_beginBlock {id : UInt32} {kind : BlockKind} (hk : BlockKind.ofId? id = some kind) :
    ∃ scope t, beginBlock id s = .ok scope t ∧ t.out.Tidy := by
  obtain ⟨out, offset, log, hrun, hadds, -⟩ := beginBlock_of_kind hs hk
  exact ⟨_, _, hrun, hadds.tidy⟩

theorem endBlock_of_match (scope : Scope) {rest : List Frame}
    (hframes : s.frames = scope.frame :: rest) (hdepth : scope.depth = s.depth)
    (hword : scope.frame.lengthOffset % 4 = 0)
    (hin : 8 * (scope.frame.lengthOffset + 4) ≤ s.out.bitLen) :
    ∃ out, s.out.Adds (Wire.closing s.out.bitLen s.width) out ∧
      (∀ words : UInt32, 8 * (scope.frame.lengthOffset + 4) + 32 * words.toNat = out.bitLen →
        endBlock scope s = .ok () ⟨out.overwrite scope.frame.lengthOffset words, rest,
          s.log.push (.exited scope.frame.kind words)⟩) ∧
      (8 * (scope.frame.lengthOffset + 4) + 32 * UInt32.size ≤ out.bitLen →
        ∃ e, endBlock scope s = .error e { s with out }) := by
  have h₁ := Buffer.adds_pushAll hs (Wire.exit s.width)
  have h₂ := h₁.trans (Buffer.adds_align32 h₁.tidy)
  have haligned := Buffer.align32_aligned h₁.tidy
  rw [h₁.bitLen_eq] at h₂
  have hrun := endBlock_eq hs.sized scope hframes hdepth hin
  dsimp only [bodyBytes] at hrun
  refine ⟨ended s, h₂, ?_, ?_⟩
  · intro words hwords
    have hcount : ((ended s).bitLen / 8 - (scope.frame.lengthOffset + 4)) / 4 = words.toNat := by
      omega
    rw [hcount, if_pos words.toNat_lt, Nat.toUInt32_eq, UInt32.ofNat_toNat] at hrun
    exact hrun
  · intro hlarge
    rw [if_neg (by dsimp only [ended] at hlarge ⊢; omega)] at hrun
    exact ⟨_, hrun⟩

end Emit

end BlockStream
