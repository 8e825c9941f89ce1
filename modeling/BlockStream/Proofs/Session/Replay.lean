import BlockStream.Proofs.Session.RoundTrip
import BlockStream.Proofs.Wire.Recount

namespace BlockStream

open Session

mutual

/-- Write an item with the operations of a session. The number of types is free for each
definition, as nothing that has been read is sized by it. -/
def Item.replay (types : Place → UInt32) (place : Place) : Item → Emit Unit
  | .block h items => do
    let scope ← Emit.beginBlock h.id
    Item.replayAll types place 0 items
    Emit.endBlock scope
  | .record code operands => Emit.record code.toUInt32 operands
  | .definition layout => Emit.define layout (types place)
termination_by structural item => item

/-- Write the items of a block, of which the first has number `n`. -/
def Item.replayAll (types : Place → UInt32) (place : Place) (n : Nat) : List Item → Emit Unit
  | [] => return ()
  | item :: rest => do
    item.replay types (n :: place)
    Item.replayAll types place (n + 1) rest
termination_by structural items => items

end

def Stream.replay (types : Place → UInt32) (S : Stream) : Except (Fault EncodeError) ByteArray :=
  match Item.replayAll types [] 0 S.items (start .empty) with
  | .ok _ t => t.finish.mapError .error
  | .error e _ => .error e

theorem Operand.resolve_of_ne {op : Operand} (h : op ≠ .typeIndex) (types : UInt32) :
    op.resolve types = op := by
  cases op with
  | typeIndex => exact absurd rfl h
  | _ => rfl

theorem Layout.resolve_of_not_mem {layout : Layout} (h : .typeIndex ∉ layout) (types : UInt32) :
    layout.resolve types = layout := by
  rw [Layout.resolve, List.map_congr_left (g := id), List.map_id]
  exact fun op hop ↦ Operand.resolve_of_ne (fun htype ↦ h (htype ▸ hop)) types

theorem BlockKind.blockOf?_recount {kind : BlockKind} {h : Header} {body : List Item}
    (hk : BlockKind.ofId? h.id = some kind) (hwidth : h.abbrevWidth = kind.abbrevWidth)
    (hregular : Wire.Regular (Item.block h body).recount) :
    kind.blockOf? (Item.recountAll body) = some (Item.block h body).recount := by
  obtain ⟨-, -, hwords, -⟩ := hregular
  have hid := BlockKind.id_of_ofId? hk
  have hlt : Wire.bodyWords kind.abbrevWidth.toNat (Item.recountAll body) < UInt32.size := by
    rw [← hwidth]
    exact Nat.lt_of_le_of_lt (Nat.le_of_eq hwords.symm) (UInt32.toNat_lt _)
  rw [blockOf?_of_lt hlt, hid, ← hwidth]
  rfl

namespace Session

mutual

theorem emits_replay {types : Place → UInt32} (htypes : ∀ place, types place ≠ 0) (place : Place) :
    (item : Item) → item.Writable → Wire.Regular item.recount → ∀ {s : Session}, s.out.Tidy →
    ∃ t, item.replay types place s = .ok () t ∧ s.Emits t [item.recount]
  | .block h body, ⟨⟨kind, hk, hwidth⟩, hbody⟩, hregular, s, hs => by
    obtain ⟨scope, t, hopen, htidy⟩ := Emit.exists_beginBlock hs hk
    obtain ⟨u, hrun, hemits⟩ :=
      emits_replayAll htypes place 0 body hbody hregular.2.2.2 htidy
    obtain ⟨v, hclose, hemits'⟩ := emits_of_endBlock hs hk hopen hemits
      (BlockKind.blockOf?_recount hk hwidth hregular)
    exact ⟨v, (bind_of_ok hopen).trans ((bind_of_ok hrun).trans hclose), hemits'⟩
  | .record code operands, hcode, _, s, hs => by
    obtain ⟨t, hrun, hemits⟩ := emits_record hs code.toUInt32 operands
    have hback : code.toUInt32.toUInt64 = code := by
      rw [← UInt64.toNat_inj, UInt32.toNat_toUInt64, Read.toNat_toUInt32 hcode]
    rw [hback] at hemits
    exact ⟨t, hrun, hemits⟩
  | .definition layout, _, hregular, s, hs => by
    obtain ⟨t, hrun, hemits⟩ := emits_define hs layout (htypes place)
    rw [Layout.resolve_of_not_mem hregular] at hemits
    exact ⟨t, hrun, hemits⟩
termination_by structural item => item

theorem emits_replayAll {types : Place → UInt32} (htypes : ∀ place, types place ≠ 0) (place : Place)
    (n : Nat) : (items : List Item) → Item.AllWritable items →
    Wire.AllRegular (Item.recountAll items) → ∀ {s : Session}, s.out.Tidy →
    ∃ t, Item.replayAll types place n items s = .ok () t ∧ s.Emits t (Item.recountAll items)
  | [], _, _, s, hs => ⟨s, rfl, .refl hs⟩
  | item :: rest, ⟨hitem, hrest⟩, ⟨hregular, hregulars⟩, s, hs => by
    obtain ⟨t, hrun, hemits⟩ := emits_replay htypes (n :: place) item hitem hregular hs
    obtain ⟨u, hruns, hemits'⟩ :=
      emits_replayAll htypes place (n + 1) rest hrest hregulars hemits.adds.tidy
    exact ⟨u, (bind_of_ok hrun).trans hruns, hemits.trans hemits'⟩
termination_by structural items => items

end

theorem exists_replay {S : Stream} (hwritable : Item.AllWritable S.items)
    (hregular : Wire.AllRegular S.recount.items) :
    ∃ body, allBits body = Wire.ofItems Format.topLevelWidth 0 S.recount.items ∧
      ∀ types : Place → UInt32, (∀ place, types place ≠ 0) →
        S.replay types = .ok (Format.magic ++ body) := by
  have hrun (types : Place → UInt32) (htypes : ∀ place, types place ≠ 0) :
      ∃ body, S.replay types = .ok (Format.magic ++ body) ∧
        allBits body = Wire.ofItems Format.topLevelWidth 0 S.recount.items := by
    have hstart : (start .empty).out.Tidy :=
      (Buffer.adds_pushBytes (Buffer.tidy_ofBytes .empty) Format.magic).tidy
    obtain ⟨t, hrun, hemits⟩ := emits_replayAll htypes [] 0 S.items hwritable
      (S.items_recount ▸ hregular) hstart
    rw [← S.items_recount] at hemits
    obtain ⟨body, hfinish, hbody⟩ := finish_of_emits_blocks hemits
    refine ⟨body, ?_, hbody⟩
    rw [Stream.replay, hrun]
    dsimp only
    rw [hfinish]
    rfl
  obtain ⟨body, -, hbody⟩ := hrun (fun _ ↦ 1) fun _ ↦ by decide
  refine ⟨body, hbody, fun types htypes ↦ ?_⟩
  obtain ⟨body', hreplay, hbody'⟩ := hrun types htypes
  rw [hreplay, eq_of_allBits (hbody'.trans hbody.symm)]

end Session

end BlockStream
