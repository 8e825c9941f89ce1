import BlockStream.Proofs.Buffer.Content
import BlockStream.Proofs.Decode.Canonical

namespace BlockStream

/-- The block that these numbers lead to: that of an item, of an item in it, and so on inwards. -/
def Item.blockAt? (items : List Item) : List Nat → Option Block
  | [] => none
  | n :: inner =>
    match items[n]? with
    | some (.block h body) => if inner = [] then some ⟨h, body⟩ else Item.blockAt? body inner
    | _ => none

def Stream.blockAt? (S : Stream) (place : Place) : Option Block :=
  Item.blockAt? S.items place.reverse

namespace Wire

open Format

/-- Of items that are written at `pos`, a block at a place among them, and the bits in front of its
length word and behind it. -/
inductive LengthAt :
    (width pos : Nat) → List Item → Place → Block → (front back : List Bool) → Prop
  | itself {width pos : Nat} {h : Header} {before body after : List Item}
      {lead marker opening inner ending rest : List Bool} :
      IsItems width pos before lead → IsField width enterSubblock marker →
      IsHeader (pos + lead.length + marker.length) h
        (opening ++ bitsOf 32 h.lengthWords.toNat) →
      IsItems h.abbrevWidth.toNat
        (pos + lead.length + (marker ++ (opening ++ bitsOf 32 h.lengthWords.toNat)).length)
        body inner →
      IsEnd h.abbrevWidth.toNat
        (pos + lead.length + (marker ++ (opening ++ bitsOf 32 h.lengthWords.toNat) ++ inner).length)
        ending →
      (inner ++ ending).length = 32 * h.lengthWords.toNat →
      IsItems width (pos + lead.length +
        (marker ++ (opening ++ bitsOf 32 h.lengthWords.toNat) ++ inner ++ ending).length)
        after rest →
      LengthAt width pos (before ++ .block h body :: after) [before.length] ⟨h, body⟩
        (lead ++ marker ++ opening) (inner ++ ending ++ rest)
  | within {width pos : Nat} {h : Header} {before body after : List Item} {place : Place}
      {b : Block} {lead marker header front back ending rest : List Bool} :
      IsItems width pos before lead → IsField width enterSubblock marker →
      IsHeader (pos + lead.length + marker.length) h header →
      LengthAt h.abbrevWidth.toNat (pos + lead.length + (marker ++ header).length) body place b
        front back →
      IsEnd h.abbrevWidth.toNat
        (pos + lead.length + (marker ++ header ++ (front ++
          bitsOf 32 b.header.lengthWords.toNat ++ back)).length) ending →
      (front ++ bitsOf 32 b.header.lengthWords.toNat ++ back ++ ending).length =
        32 * h.lengthWords.toNat →
      IsItems width (pos + lead.length + (marker ++ header ++ (front ++
          bitsOf 32 b.header.lengthWords.toNat ++ back) ++ ending).length) after rest →
      LengthAt width pos (before ++ .block h body :: after) (place ++ [before.length]) b
        (lead ++ marker ++ header ++ front) (back ++ ending ++ rest)

theorem IsItems.split {width pos : Nat} {xs ys : List Item} {bits : List Bool}
    (h : IsItems width pos (xs ++ ys) bits) :
    ∃ front back, IsItems width pos xs front ∧ IsItems width (pos + front.length) ys back ∧
      bits = front ++ back := by
  induction xs generalizing pos bits with
  | nil => exact ⟨[], bits, .nil .., h, rfl⟩
  | cons x xs ih =>
    cases h with
    | leaf hleaf hrest =>
      obtain ⟨front, back, hxs, hys, rfl⟩ := ih hrest
      refine ⟨_, back, .leaf hleaf hxs, ?_, (List.append_assoc ..).symm⟩
      simpa [Nat.add_assoc] using hys
    | block hmarker hheader hbody hending hlen hrest =>
      obtain ⟨front, back, hxs, hys, rfl⟩ := ih hrest
      refine ⟨_, back, .block hmarker hheader hbody hending hlen hxs, ?_,
        (List.append_assoc ..).symm⟩
      simpa [Nat.add_assoc] using hys

/-- A header ends in its length word, and is a header with any other word there. -/
theorem IsHeader.relabel {pos : Nat} {h : Header} {bits : List Bool} (hh : IsHeader pos h bits) :
    ∃ opening, bits = opening ++ bitsOf 32 h.lengthWords.toNat ∧
      ∀ d : UInt32, IsHeader pos { h with lengthWords := d } (opening ++ bitsOf 32 d.toNat) := by
  obtain ⟨id, width, padding, hid, hwidth, hpos, hle, hpadding, rfl⟩ := hh
  exact ⟨id ++ width ++ padding, rfl, fun d ↦
    ⟨id, width, padding, hid, hwidth, hpos, hle, hpadding, rfl⟩⟩

theorem exists_lengthAt {width pos : Nat} {items : List Item} {bits : List Bool} {inner : List Nat}
    {b : Block} (h : IsItems width pos items bits) (hb : Item.blockAt? items inner = some b) :
    ∃ front back, LengthAt width pos items inner.reverse b front back ∧
      bits = front ++ bitsOf 32 b.header.lengthWords.toNat ++ back := by
  induction inner generalizing width pos items bits with
  | nil => cases hb
  | cons n inner ih =>
    rw [Item.blockAt?] at hb
    split at hb
    · rename_i g body hn
      obtain ⟨hlt, hget⟩ := List.getElem?_eq_some_iff.mp hn
      have hsplit : items = items.take n ++ .block g body :: items.drop (n + 1) := by
        rw [← hget, List.getElem_cons_drop, List.take_append_drop]
      have hlength : (items.take n).length = n := List.length_take_of_le (Nat.le_of_lt hlt)
      rw [hsplit] at h ⊢
      generalize items.take n = before at h hlength ⊢
      generalize items.drop (n + 1) = after at h ⊢
      subst hlength
      obtain ⟨lead, _, hbefore, hrest, rfl⟩ := h.split
      cases hrest with
      | leaf hleaf _ => cases hleaf
      | @block _ _ _ _ _ marker header bits ending rest hmarker hheader hbody hending hlen hafter =>
        split at hb
        · rename_i hempty
          cases hb
          subst hempty
          obtain ⟨opening, rfl, -⟩ := hheader.relabel
          exact ⟨_, _, .itself hbefore hmarker hheader hbody hending hlen hafter, by simp⟩
        · obtain ⟨front, back, hwithin, rfl⟩ := ih hbody hb
          rw [List.reverse_cons]
          exact ⟨_, _, .within hbefore hmarker hheader hwithin hending hlen hafter, by simp⟩
    · cases hb

theorem LengthAt.aligned {width pos : Nat} {items : List Item} {place : Place} {b : Block}
    {front back : List Bool} (h : LengthAt width pos items place b front back) :
    (pos + front.length) % 32 = 0 := by
  induction h with
  | itself _ _ hheader =>
    have hend := hheader.aligned
    simp only [List.length_append, length_bitsOf] at hend ⊢
    omega
  | within _ _ _ _ _ _ _ ih =>
    simp only [List.length_append] at ih ⊢
    omega

end Wire

/-- The length word of a block of a stream, by the first of its bytes. -/
def Stream.LengthAt (S : Stream) (bytes : ByteArray) (place : Place) (b : Block) (n : Nat) : Prop :=
  ∃ (body : ByteArray) (front back : List Bool), bytes = Format.magic ++ body ∧
    allBits body = front ++ bitsOf 32 b.header.lengthWords.toNat ++ back ∧
    Wire.LengthAt Format.topLevelWidth 0 S.items place b front back ∧
    8 * n = 8 * Format.magic.size + front.length

theorem Stream.exists_lengthAt {S : Stream} {body : ByteArray} {place : Place} {b : Block}
    (h : Wire.IsItems Format.topLevelWidth 0 S.items (allBits body))
    (hb : S.blockAt? place = some b) : ∃ n, S.LengthAt (Format.magic ++ body) place b n := by
  obtain ⟨front, back, hat, hbits⟩ := Wire.exists_lengthAt h hb
  rw [List.reverse_reverse] at hat
  have haligned := hat.aligned
  exact ⟨Format.magic.size + front.length / 8, body, front, back, rfl, hbits, hat, by omega⟩

namespace Decode

open Format Wire

def declares (b : Block) (d : UInt32) : Fault DecodeError :=
  .error (.lengthMismatch b.header.id d b.header.lengthWords.toNat)

theorem close_of_mismatch (h : Header) (start : Nat) {s : State} {c : Cursor} {bits : List Bool}
    (hpadding : IsPadding s.cursor.pos bits) (htake : s.cursor.Takes bits c)
    (hle : start ≤ c.pos / 8) (hne : (c.pos / 8 - start) / 4 ≠ h.lengthWords.toNat) :
    ∃ t, close h start s =
      .error (.error (.lengthMismatch h.id h.lengthWords ((c.pos / 8 - start) / 4))) t := by
  obtain ⟨log₁, halign⟩ := yields_readOr (s := s) (e := .unterminatedBlock h.id)
    (Read.align32_of_takes hpadding htake)
  have haligned : c.pos % 8 = 0 := by
    have hend := hpadding.2
    rw [← htake.pos_eq] at hend
    omega
  obtain ⟨log₂, hoffset⟩ := yields_read (s := ⟨c, log₁⟩) (Read.byteOffset_of_aligned haligned)
  refine ⟨⟨c, log₂⟩, (bind_of_ok halign).trans ((bind_of_ok hoffset).trans ?_)⟩
  refine (bind_of_ok (a := c.pos / 8 - start) (t := ⟨c, log₂⟩) ?_).trans ?_
  · rw [difference, if_pos hle]
    rfl
  · rw [require, if_neg hne]
    rfl

/-- A block that declares a wrong length is read up to its end, and refused there. -/
theorem block_of_declared {pos : Nat} {h : Header} {body : List Item} {d : UInt32}
    {opening inner ending : List Bool}
    (hheader : IsHeader pos h (opening ++ bitsOf 32 h.lengthWords.toNat))
    (hinner : IsItems h.abbrevWidth.toNat
      (pos + (opening ++ bitsOf 32 h.lengthWords.toNat).length) body inner)
    (hending : IsEnd h.abbrevWidth.toNat
      (pos + (opening ++ bitsOf 32 h.lengthWords.toNat ++ inner).length) ending)
    (hlen : (inner ++ ending).length = 32 * h.lengthWords.toNat) (hd : d ≠ h.lengthWords)
    {levels : Nat} (hdepth : Item.depthAll body < levels) {s : State} {c : Cursor}
    (hs : s.cursor.pos = pos)
    (htake : s.cursor.Takes (opening ++ bitsOf 32 d.toNat ++ inner ++ ending) c) :
    ∃ t, (block levels).val s = .error (declares ⟨h, body⟩ d) t := by
  cases levels with
  | zero => exact absurd hdepth (Nat.not_lt_zero _)
  | succ levels =>
    have hstart := hheader.aligned
    obtain ⟨opening', hopening, hrelabel⟩ := hheader.relabel
    obtain rfl := List.append_cancel_right hopening
    obtain ⟨marker, padding, hmarker, hpadding, rfl⟩ := hending
    rw [← List.append_assoc] at htake
    obtain ⟨c', hc', hd'⟩ := htake.split
    have hat := hc'.pos_eq
    have hend := hd'.pos_eq
    simp only [List.length_append, length_bitsOf] at hinner hpadding hlen hstart hat
    -- only the length word of the header differs, which the items do not depend on
    have hpasses : Passes h.abbrevWidth.toNat (pos + (opening ++ bitsOf 32 d.toNat).length) body
        inner := by
      simpa only [List.length_append, length_bitsOf] using passes_of_isItems hinner
    obtain ⟨log, hrun⟩ := block_of_marker (hrelabel d) hpasses hmarker (Nat.le_of_lt_succ hdepth)
      hs hc'
    simp only [List.length_append, length_bitsOf] at hrun
    have hclosed : IsPadding c'.pos padding := by rwa [hat, hs, ← Nat.add_assoc]
    have hstop := hclosed.2
    have hwords : (c.pos / 8 - (pos + (opening.length + 32)) / 8) / 4 = h.lengthWords.toNat := by
      omega
    have hne : h.lengthWords.toNat ≠ d.toNat := fun heq ↦ hd (UInt32.toNat_inj.mp heq.symm)
    obtain ⟨t, hclose⟩ := close_of_mismatch { h with lengthWords := d }
      ((pos + (opening.length + 32)) / 8) (s := ⟨c', log⟩) hclosed hd' (by omega) (by rwa [hwords])
    rw [hwords] at hclose
    exact ⟨t, hrun.trans (bind_of_error hclose)⟩

theorem nested_of_error {width pos : Nat} {before : List Item} {lead marker rest : List Bool}
    {e : Fault DecodeError} {levels : Nat} {g : Header} {seen : List Item} {s : State} {c : Cursor}
    (hbefore : IsItems width pos before lead) (hmarker : IsField width enterSubblock marker)
    (hg : g.abbrevWidth.toNat = width) (hpos : 0 < width) (hle : width ≤ maxAbbrevWidth)
    (hdepth : Item.depthAll before ≤ levels) (hs : s.cursor.pos = pos)
    (htake : s.cursor.Takes (lead ++ marker ++ rest) c)
    (herr : ∀ u : State, u.cursor.pos = pos + lead.length + marker.length →
      u.cursor.Takes rest c → ∃ t, (block levels).val u = .error e t) :
    ∃ t, nested levels g seen s = .error e t := by
  subst hg hs
  obtain ⟨c₂, hc₂, hc₃⟩ := htake.split
  obtain ⟨c₁, hc₁, hc₂⟩ := hc₂.split
  obtain ⟨log₁, hitems⟩ := (passes_of_isItems hbefore levels g seen s c₁ rfl hpos hle rfl hc₁).1
    hdepth
  obtain ⟨log₂, hread⟩ := (recognizes_marker hpos hle).complete (s := ⟨c₁, log₁⟩) (a := 1) hmarker
    hc₂
  have hat : c₂.pos = s.cursor.pos + lead.length + marker.length := by
    rw [hc₂.pos_eq, hc₁.pos_eq]
  obtain ⟨t, ht⟩ := herr ⟨c₂, log₂⟩ hat hc₃
  exact ⟨t, hitems.trans (items_of_error hread (by decide) (map_of_error ht))⟩

theorem depthAll_split (before : List Item) (h : Header) (body after : List Item) :
    Item.depthAll (before ++ .block h body :: after) =
      max (Item.depthAll before) (max (Item.depthAll body + 1) (Item.depthAll after)) := by
  rw [Item.depthAll_append, Item.depthAll, Item.depth]

theorem block_of_lengthAt {width pos : Nat} {xs : List Item} {place : Place} {b : Block}
    {front back : List Bool} (h : LengthAt width pos xs place b front back) {d : UInt32}
    (hd : d ≠ b.header.lengthWords) :
    ∃ (before : List Item) (g : Header) (body after : List Item)
      (lead marker bits rest : List Bool),
      xs = before ++ .block g body :: after ∧
      front ++ bitsOf 32 d.toNat ++ back = lead ++ marker ++ bits ++ rest ∧
      IsItems width pos before lead ∧ IsField width enterSubblock marker ∧
      ∀ {levels : Nat} {s : State} {c : Cursor}, Item.depthAll body < levels →
        s.cursor.pos = pos + lead.length + marker.length → s.cursor.Takes bits c →
        ∃ t, (block levels).val s = .error (declares b d) t := by
  -- outwards, from the block itself
  induction h with
  | @itself width pos h before body after lead marker opening inner ending rest hbefore hmarker
      hheader hinner hending hlen _ =>
    refine ⟨before, h, body, after, lead, marker, opening ++ bitsOf 32 d.toNat ++ inner ++ ending,
      rest, rfl, by simp, hbefore, hmarker, fun hdepth hs htake ↦ ?_⟩
    exact block_of_declared hheader (by simpa [Nat.add_assoc] using hinner)
      (by simpa [Nat.add_assoc] using hending) hlen hd hdepth hs htake
  | @within width pos h before body after place b lead marker header front back ending rest
      hbefore hmarker hheader _ _ _ _ ih =>
    obtain ⟨before', g, body', after', lead', marker', bits, rest', rfl, heq, hbefore', hmarker',
      hfails⟩ := ih hd
    refine ⟨before, h, _, after, lead, marker, header ++ (lead' ++ marker' ++ bits),
      rest' ++ ending ++ rest, rfl, ?_, hbefore, hmarker, fun {levels s c} hdepth hs htake ↦ ?_⟩
    · simpa using congrArg (lead ++ marker ++ header ++ · ++ (ending ++ rest)) heq
    obtain ⟨levels, rfl⟩ := Nat.exists_eq_add_of_lt (Nat.zero_lt_of_lt hdepth)
    rw [depthAll_split, Nat.zero_add] at hdepth
    have hwidths := hheader
    obtain ⟨_, _, _, _, _, hlow, hhigh, _, _⟩ := hwidths
    rw [Nat.zero_add]
    refine block_of_header hheader hs htake fun v hv hinner ↦ ?_
    refine nested_of_error hbefore' hmarker' rfl hlow hhigh (by omega)
      (by simpa [Nat.add_assoc] using hv) hinner fun w hw hblock ↦ ?_
    exact hfails (by omega) hw hblock

theorem blocks_of_front {before : List Block} {lead marker rest : List Bool}
    {e : Fault DecodeError} {s : State} {c : Cursor}
    (hbefore : IsItems topLevelWidth s.cursor.pos (before.map Block.toItem) lead)
    (hmarker : IsField topLevelWidth enterSubblock marker)
    (hdepth : Item.depthAll (before.map Block.toItem) ≤ maxDepth)
    (htake : s.cursor.Takes (lead ++ marker ++ rest) c)
    (herr : ∀ u : State, u.cursor.pos = s.cursor.pos + lead.length + marker.length →
      u.cursor.Takes rest c → ∃ t, (block maxDepth).val u = .error e t) :
    ∃ t, blocks [] s = .error e t := by
  obtain ⟨c₂, hc₂, hc₃⟩ := htake.split
  obtain ⟨c₁, hc₁, hc₂⟩ := hc₂.split
  obtain ⟨log, hblocks⟩ := (blocks_of_isItems before [] s hbefore hc₁).1 hdepth
  obtain ⟨hgo, htop⟩ := topLevel_of_marker (s := ⟨c₁, log⟩) hmarker hc₂
  have hat : c₂.pos = s.cursor.pos + lead.length + marker.length := by
    rw [hc₂.pos_eq, hc₁.pos_eq]
  obtain ⟨t, ht⟩ := herr ⟨c₂, log⟩ hat hc₃
  exact ⟨t, hblocks.trans (blocks_of_error hgo (htop.trans ht))⟩

theorem blocks_of_lengthAt {S : Stream} {place : Place} {b : Block} {front back : List Bool}
    (h : LengthAt topLevelWidth 0 S.items place b front back) {d : UInt32}
    (hd : d ≠ b.header.lengthWords) (hdepth : S.depth ≤ maxDepth) {s : State} {c : Cursor}
    (hs : s.cursor.pos = 0) (htake : s.cursor.Takes (front ++ bitsOf 32 d.toNat ++ back) c) :
    ∃ t, blocks [] s = .error (declares b d) t := by
  obtain ⟨before, g, body, after, lead, marker, bits, rest, hitems, heq, hbefore, hmarker,
    hfails⟩ := block_of_lengthAt h hd
  obtain ⟨bs, _, -, rfl, -⟩ := List.map_eq_append_iff.mp hitems
  rw [Stream.depth, hitems, depthAll_split] at hdepth
  rw [heq] at htake
  obtain ⟨c', hc', -⟩ := htake.split
  refine blocks_of_front (hs ▸ hbefore) hmarker (by omega) hc' fun u hu hblock ↦ ?_
  exact hfails (by omega) (by rw [hu, hs]) hblock

/-- Wherever a block stands in a decoded stream, its length word is among the bytes. With any other
word there, decoding tells that this block has a wrong length, and nothing else. -/
theorem decode_of_wrongLength {bytes : ByteArray} {S : Stream} (h : Stream.decode bytes = .ok S)
    {place : Place} {b : Block} (hb : S.blockAt? place = some b) :
    (∃ n, S.LengthAt bytes place b n) ∧
    ∀ n, S.LengthAt bytes place b n →
      (Buffer.ofBytes bytes).HasWord n b.header.lengthWords ∧
      ∀ d : UInt32, d ≠ b.header.lengthWords →
        Stream.decode ((Buffer.ofBytes bytes).overwrite n d).bytes =
          .error (.error (.lengthMismatch b.header.id d b.header.lengthWords.toNat)) := by
  obtain ⟨hdepth, body, rfl, hitems⟩ := isWritten_of_decode h
  refine ⟨Stream.exists_lengthAt hitems hb, ?_⟩
  rintro n ⟨body', front, back, hbody, hbits, hat, hn⟩
  obtain rfl := append_left_cancel hbody
  have hall : allBits (magic ++ body) =
      allBits magic ++ front ++ bitsOf 32 b.header.lengthWords.toNat ++ back := by
    rw [allBits_append, hbits]
    simp
  have hoff : 8 * n = (allBits magic ++ front).length := by
    rw [hn, List.length_append, allBits, length_bitsAt]
  constructor
  · exact Buffer.hasWord_of_allBits hall hoff
  · intro d hd
    have hbits' := Buffer.allBits_overwrite d hall hoff
    rw [List.append_assoc, List.append_assoc, ← List.append_assoc front] at hbits'
    obtain ⟨new, hnew, hnewBits⟩ := exists_append_of_allBits hbits'
    have htake := takes_allBits new
    rw [hnewBits] at htake
    obtain ⟨t, ht⟩ := blocks_of_lengthAt hat hd hdepth (s := ⟨⟨new, 0⟩, #[]⟩) rfl htake
    rw [hnew, decode_magic_append, ht]
    rfl

theorem decode_of_wrongLength_nested :
    let bytes := magic ++ ⟨#[33, 12, 0, 0, 5, 0, 0, 0, 137, 32, 0, 0, 2, 0, 0, 0, 34, 22, 8, 153,
      32, 16, 0, 0, 59, 2, 54, 1]⟩
    let b : Block := ⟨⟨17, 4, 2⟩, [.definition [.literal 5, .fixed 4], .record 1 [2]]⟩
    let S : Stream := ⟨[⟨⟨8, 3, 5⟩, [b.toItem, .record 7 [300]]⟩]⟩
    Stream.decode bytes = .ok S ∧ S.blockAt? [0, 0] = some b ∧ (7 : UInt32) ≠ 2 ∧
      ∃ n, S.LengthAt bytes [0, 0] b n ∧ (Buffer.ofBytes bytes).HasWord n 2 ∧
        Stream.decode ((Buffer.ofBytes bytes).overwrite n 7).bytes =
          .error (.error (.lengthMismatch 17 7 2)) := by
  intro bytes b S
  have hdecode : Stream.decode bytes = .ok S :=
    (decode_of_ofItems (by decide +kernel) (by decide +kernel)).trans (if_pos (by decide))
  have hb : S.blockAt? [0, 0] = some b := rfl
  have hd : (7 : UInt32) ≠ 2 := by decide
  obtain ⟨⟨n, hn⟩, hall⟩ := decode_of_wrongLength hdecode hb
  obtain ⟨hword, hmismatch⟩ := hall n hn
  exact ⟨hdecode, hb, hd, n, hn, hword, hmismatch 7 hd⟩

end Decode

end BlockStream
