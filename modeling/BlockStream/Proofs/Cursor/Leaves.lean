import BlockStream.Proofs.Cursor.Takes
import BlockStream.Proofs.Folding
import BlockStream.Proofs.Wire.Canonical

namespace BlockStream

theorem Char6.decode_of_encode? {c : Char} {code : Fin 64} (h : encode? c = some code) :
    decode code = c := by
  obtain ⟨i, hi, rfl⟩ := Option.map_eq_some_iff.mp h
  obtain ⟨hlt, hget, -⟩ := List.idxOf?_eq_some_iff.mp hi
  have hcode : (Fin.ofNat 64 i).val = i := Nat.mod_eq_of_lt hlt
  rw [decode, hcode, List.getD_eq_getElem _ _ hlt, hget]

theorem Char6.ofByte_code (code : Fin 64) : ofByte code.val.toUInt64.toUInt8 = decode code := by
  have hcode : Fin.ofNat 64 code.val.toUInt64.toUInt8.toNat = code := by
    apply Fin.ext
    simp
  rw [ofByte, hcode]

theorem Char6.exists_encode? {c : Char} (h : c ∈ alphabet) : ∃ code, encode? c = some code := by
  cases hi : alphabet.idxOf? c with
  | none => exact absurd h (List.idxOf?_eq_none_iff.mp hi)
  | some i => exact ⟨_, by rw [encode?, hi]; rfl⟩

namespace Read

variable {c d : Cursor}

theorem byte_of_takes {x : UInt8} (h : c.Takes (bitsOf 8 x.toNat) d) : byte c = .ok x d := by
  have hf := field_of_takes h (by decide) x.toNat_lt
  refine (bind_of_ok hf).trans ?_
  have hx : x.toNat.toUInt64.toUInt8 = x := by simp
  rw [hx]
  rfl

theorem char6_of_takes {code : Fin 64} (h : c.Takes (bitsOf 6 code.val) d) :
    char6 c = .ok (Char6.decode code) d := by
  have hf := field_of_takes h (by decide) code.isLt
  refine (bind_of_ok hf).trans ?_
  rw [Char6.ofByte_code]
  rfl

theorem vbr_of_fields {width : Nat} (hw : 2 ≤ width ∧ width ≤ 64) {v : UInt64}
    (h : c.Takes ((Vbr.fields width v.toNat).flatMap Field.bits) d) : vbr width c = .ok v d := by
  rw [vbr_of_takes hw (Wire.isVbr_fields hw.1 v.toNat_lt) h, toUInt64_toNat]

theorem signedVbr_of_fields {width : Nat} (hw : 2 ≤ width ∧ width ≤ 64) {x : Int64}
    (h : c.Takes ((Vbr.fields width (Vbr.fold x).toNat).flatMap Field.bits) d) :
    signedVbr width c = .ok x d := by
  refine (bind_of_ok (vbr_of_fields hw h)).trans ?_
  rw [Vbr.unfold_fold]
  rfl

theorem between_of_takes {payload : ByteArray} {start : Nat} (hpos : c.pos = 8 * start)
    (h : c.Takes (allBits payload) d) {e : Cursor} (he : e.bytes = c.bytes) :
    between start (start + payload.size) e = .ok payload e := by
  have hin := h.inside
  have hbits := h.bits_eq
  rw [allBits, length_bitsAt, Cursor.bitLen] at hin
  rw [allBits, length_bitsAt] at hbits
  have hstop : start + payload.size ≤ c.bytes.size := by omega
  have hpart : c.bytes.extract start (start + payload.size) = payload := by
    have hsize : (c.bytes.extract start (start + payload.size)).size = payload.size := by
      rw [ByteArray.size_extract]
      omega
    apply eq_of_bitAt hsize
    intro i hi
    rw [hsize] at hi
    have hget := List.getElem_of_eq hbits (i := i) (by simpa using hi)
    rw [getElem_bitsAt, getElem_bitsAt, Nat.zero_add, hpos] at hget
    rw [bitAt_extract hstop (by omega), hget]
  rw [between, slice, he, if_pos ⟨Nat.le_add_right .., hstop⟩, hpart]

theorem blob_of_takes {payload : ByteArray} (hsize : payload.size < 2 ^ 64)
    {number front back : List Bool}
    (hnumber : Wire.IsVbr Format.blobLengthChunk payload.size number)
    (hfront : Wire.IsPadding (c.pos + number.length) front)
    (hback : Wire.IsPadding (c.pos + (number ++ front ++ allBits payload).length) back)
    (h : c.Takes (number ++ front ++ allBits payload ++ back) d) : blob c = .ok payload d := by
  obtain ⟨c₃, hc₃, hc₄⟩ := h.split
  obtain ⟨c₂, hc₂, hc₃'⟩ := hc₃.split
  obtain ⟨c₁, hc₁, hc₂'⟩ := hc₂.split
  have hlen := toNat_toUInt64 hsize
  have hall : (allBits payload).length = 8 * payload.size := length_bitsAt ..
  rw [← hc₁.pos_eq] at hfront
  rw [← hc₃.pos_eq] at hback
  have haligned : c₂.pos % 8 = 0 := by
    have hend := hfront.2
    rw [← hc₂'.pos_eq] at hend
    omega
  have hskip := skip_of_takes hc₃'
  rw [hall] at hskip
  have hstart : c₂.pos = 8 * (c₂.pos / 8) := by omega
  have hbetween := between_of_takes hstart hc₃' (hc₄.bytes_eq.trans hc₃'.bytes_eq)
  refine (bind_of_ok (vbr_of_takes (by decide) hnumber hc₁)).trans ?_
  rw [hlen]
  refine (bind_of_ok (align32_of_takes hfront hc₂')).trans ?_
  refine (bind_of_ok (byteOffset_of_aligned haligned)).trans ?_
  refine (bind_of_ok hskip).trans ?_
  exact (bind_of_ok (align32_of_takes hback hc₄)).trans hbetween

end Read

end BlockStream
