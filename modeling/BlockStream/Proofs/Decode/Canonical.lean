import BlockStream.Proofs.Decode.Grammar
import BlockStream.Proofs.Wire.Canonical

namespace BlockStream.Decode

open Format Wire

theorem isItems_ofStream {S : Stream} (hregular : AllRegular S.items) :
    IsItems topLevelWidth 0 S.items (ofItems topLevelWidth 0 S.items) := by
  refine isItems_ofItems S.items (by decide) 0 hregular fun item hitem ↦ ?_
  obtain ⟨block, -, rfl⟩ := List.mem_map.mp hitem
  exact Nat.two_pow_pos 64

theorem decode_of_ofItems {S : Stream} {body : ByteArray} (hregular : AllRegular S.items)
    (h : allBits body = ofItems topLevelWidth 0 S.items) :
    Stream.decode (magic ++ body) = if S.depth ≤ maxDepth then .ok S else .error tooDeep :=
  decode_of_isItems (h ▸ isItems_ofStream hregular)

theorem exists_marker_of_leaf {leaf : Item} (h : leaf.isBlock = false) (width pos : Nat) :
    ∃ id rest, ofItem width pos leaf = bitsOf width id ++ rest ∧ id < 4 ∧ id ≠ enterSubblock := by
  cases leaf with
  | block => cases h
  | record code operands => exact ⟨unabbrevRecord, _, rfl, by decide, by decide⟩
  | definition layout => exact ⟨defineAbbrev, _, rfl, by decide, by decide⟩

theorem exists_error_of_leaf {S : Stream} {leaf : Item} {body : ByteArray} {pos : Nat}
    {rest : List Bool} (hregular : AllRegular S.items) (hleaf : leaf.isBlock = false)
    (h : allBits body = ofItems topLevelWidth 0 S.items ++
      (ofItem topLevelWidth pos leaf ++ rest)) :
    ∃ e, Stream.decode (magic ++ body) = .error e := by
  have htake := takes_allBits body
  rw [h] at htake
  obtain ⟨c, hc, hd⟩ := htake.split
  have hblocks := blocks_of_isItems S.blocks [] ⟨⟨body, 0⟩, #[]⟩ (isItems_ofStream hregular) hc
  rw [decode_magic_append]
  rcases Nat.lt_or_ge maxDepth S.depth with hdeep | hdepth
  · obtain ⟨t, ht⟩ := hblocks.2 hdeep
    exact ⟨tooDeep, by rw [ht]⟩
  · obtain ⟨log, hrun⟩ := hblocks.1 hdepth
    obtain ⟨id, more, hmarker, hlt, hne⟩ := exists_marker_of_leaf hleaf topLevelWidth pos
    rw [hmarker, List.append_assoc] at hd
    obtain ⟨e, he, -⟩ := hd.split
    have hread := Read.field_of_takes he (by decide) hlt
    have hgo : c.atEnd = false := by
      have hin := he.inside
      rw [length_bitsOf] at hin
      exact decide_eq_false (Nat.not_le.mpr (Nat.lt_of_lt_of_le
        (Nat.lt_add_of_pos_right (by decide)) hin))
    have htop : topLevel ⟨c, log⟩ =
        .error (.error (.unexpectedTopLevelItem id.toUInt64)) ⟨e, log⟩ := by
      refine (bind_of_ok (a := id.toUInt64) (t := ⟨e, log⟩) (by rw [read, hread])).trans ?_
      have hid : ¬ id.toUInt64.toNat = enterSubblock := by
        rwa [Read.toNat_toUInt64 (Nat.lt_trans hlt (by decide))]
      exact bind_of_error (by rw [require, if_neg hid]; rfl)
    exact ⟨_, by rw [hrun, blocks_of_error hgo htop]⟩

theorem padding_of_stream (S : Stream) :
    padding (ofItems topLevelWidth 0 S.items).length = [] := by
  have haligned := ofItems_aligned (fun _ ↦ S.isBlock_of_mem_items) topLevelWidth (Nat.zero_mod 32)
  rw [Nat.zero_add] at haligned
  exact padding_of_aligned haligned

theorem exists_blocks_append (items : List Item) :
    ∃ (S : Stream) (rest : List Item), items = S.items ++ rest ∧
      (rest = [] ∨ ∃ leaf more, rest = leaf :: more ∧ leaf.isBlock = false) := by
  induction items with
  | nil => exact ⟨⟨[]⟩, [], rfl, .inl rfl⟩
  | cons item items ih =>
    cases item with
    | block h body =>
      obtain ⟨S, rest, rfl, hrest⟩ := ih
      exact ⟨⟨⟨h, body⟩ :: S.blocks⟩, rest, rfl, hrest⟩
    | record code operands => exact ⟨⟨[]⟩, _, rfl, .inr ⟨_, _, rfl, rfl⟩⟩
    | definition layout => exact ⟨⟨[]⟩, _, rfl, .inr ⟨_, _, rfl, rfl⟩⟩

theorem items_eq_of_decode {items : List Item} {body : ByteArray} {S : Stream}
    (hregular : AllRegular items)
    (hbody : allBits body = ofItems topLevelWidth 0 items ++
      padding (ofItems topLevelWidth 0 items).length)
    (h : Stream.decode (magic ++ body) = .ok S) :
    S.items = items ∧ allBits body = ofItems topLevelWidth 0 items := by
  obtain ⟨T, rest, rfl, rfl | ⟨leaf, more, rfl, hleaf⟩⟩ := exists_blocks_append items
  · rw [List.append_nil] at hregular hbody ⊢
    rw [padding_of_stream, List.append_nil] at hbody
    have hdecode := decode_of_ofItems hregular hbody
    rw [h] at hdecode
    split at hdecode
    · cases hdecode
      exact ⟨rfl, hbody⟩
    · cases hdecode
  · rw [ofItems_append, ofItems, List.append_assoc, List.append_assoc] at hbody
    obtain ⟨e, he⟩ := exists_error_of_leaf (allRegular_append.mp hregular).1 hleaf hbody
    cases he.symm.trans h

end BlockStream.Decode
