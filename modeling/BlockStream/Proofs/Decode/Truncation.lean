import BlockStream.Proofs.Decode.Concatenation
import BlockStream.Proofs.Decode.Persist
import BlockStream.Proofs.Decode.Safe

namespace BlockStream

namespace Wire

open Format

mutual

/-- Of a block that is written at `pos`, the header of a block that is open at bit `cut`: the block
itself or one inside it. A block is open from behind its length word up to its end. -/
inductive OpenInBlock (cut : Nat) :
    (pos : Nat) → Header → List Item → List Bool → Header → Prop
  | itself {pos : Nat} {h : Header} {body : List Item} {header inner ending : List Bool} :
      IsHeader pos h header → IsItems h.abbrevWidth.toNat (pos + header.length) body inner →
      IsEnd h.abbrevWidth.toNat (pos + (header ++ inner).length) ending →
      (inner ++ ending).length = 32 * h.lengthWords.toNat →
      pos + header.length ≤ cut → cut < pos + (header ++ inner ++ ending).length →
      OpenInBlock cut pos h body (header ++ inner ++ ending) h
  | within {pos : Nat} {h g : Header} {body : List Item} {header inner ending : List Bool} :
      IsHeader pos h header →
      OpenInItems cut h.abbrevWidth.toNat (pos + header.length) body inner g →
      IsEnd h.abbrevWidth.toNat (pos + (header ++ inner).length) ending →
      (inner ++ ending).length = 32 * h.lengthWords.toNat →
      OpenInBlock cut pos h body (header ++ inner ++ ending) g

/-- Of items that are written at `pos`, the header of a block that is open at bit `cut`. -/
inductive OpenInItems (cut : Nat) : (width pos : Nat) → List Item → List Bool → Header → Prop
  | block {width pos : Nat} {h g : Header} {body items : List Item}
      {marker block rest : List Bool} :
      IsField width enterSubblock marker →
      OpenInBlock cut (pos + marker.length) h body block g →
      IsItems width (pos + (marker ++ block).length) items rest →
      OpenInItems cut width pos (.block h body :: items) (marker ++ block ++ rest) g
  | behindLeaf {width pos : Nat} {g : Header} {item : Item} {items : List Item}
      {bits rest : List Bool} :
      IsLeaf width item bits → OpenInItems cut width (pos + bits.length) items rest g →
      OpenInItems cut width pos (item :: items) (bits ++ rest) g
  | behindBlock {width pos : Nat} {h g : Header} {body items : List Item}
      {marker block rest : List Bool} :
      IsField width enterSubblock marker → IsBlock (pos + marker.length) h body block →
      OpenInItems cut width (pos + (marker ++ block).length) items rest g →
      OpenInItems cut width pos (.block h body :: items) (marker ++ block ++ rest) g

end

end Wire

namespace Stream

open Format Wire

/-- In bytes that are written as this stream its first `j` blocks end at byte `n`. -/
def EndsAt (S : Stream) (bytes : ByteArray) (j n : Nat) : Prop :=
  j ≤ S.blocks.length ∧ ∃ (body : ByteArray) (front back : List Bool), bytes = magic ++ body ∧
    allBits body = front ++ back ∧ IsItems topLevelWidth 0 (S.items.take j) front ∧
    IsItems topLevelWidth front.length (S.items.drop j) back ∧
    8 * n = 8 * magic.size + front.length

/-- In bytes that are written as this stream a block with the header `g` is open at byte `n`. -/
def OpenAt (S : Stream) (bytes : ByteArray) (n : Nat) (g : Header) : Prop :=
  ∃ body : ByteArray, bytes = magic ++ body ∧
    OpenInItems (8 * (n - magic.size)) topLevelWidth 0 S.items (allBits body) g

theorem endsAt_zero {S : Stream} {bytes : ByteArray} (h : S.IsWritten bytes) :
    S.EndsAt bytes 0 magic.size := by
  obtain ⟨-, body, rfl, hitems⟩ := h
  exact ⟨Nat.zero_le _, body, [], allBits body, rfl, rfl, .nil .., hitems, rfl⟩

end Stream

namespace Cursor.Takes

variable {c d : Cursor} {xs : List Bool}

theorem bitLen_eq (h : c.Takes xs d) : d.bitLen = c.bitLen := by
  rw [Cursor.bitLen, h.bytes_eq, Cursor.bitLen]

end Cursor.Takes

namespace Decode

open Format Wire

section Cut

variable {back : ByteArray}

theorem takes_before {s t u v : State} {bits : List Bool} (hst : t.cursor = s.cursor.before back)
    (huv : v.cursor = u.cursor.before back) (h : s.cursor.Takes bits u.cursor) :
    t.cursor.Takes bits v.cursor := by
  rw [hst, huv]
  exact h.before back

theorem stays_leaf (child : Decode Item) {id : UInt64} (hid : id.toNat ≠ enterSubblock) :
    Stays back DecodeError.IsEnd (item child id) := by
  rw [item, if_neg hid]
  exact .ite stays_definition (.ite stays_record (.throw _))

theorem ok_of_items {child : Decode Item} {hc : IsSteady child} {h : Header} {seen : List Item}
    {s v : State} {all : List Item} (hok : items child hc h seen s = .ok all v) :
    ∃ id t, marker h s = .ok id t ∧ (id ≠ 0 → ∃ i u, item child id t = .ok i u ∧
      items child hc h (i :: seen) u = .ok all v) := by
  cases hm : marker h s with
  | error e t => cases (items_of_noMarker hm).symm.trans hok
  | ok id t =>
    refine ⟨id, t, rfl, ?_⟩
    intro hid
    cases hi : item child id t with
    | error e u => cases (items_of_error hm hid hi).symm.trans hok
    | ok i u => exact ⟨i, u, rfl, (items_of_item hm hid hi).symm.trans hok⟩

/-- Where a block has no end within a cursor's bytes, and is read when others stand behind, a block
is open where those begin. -/
def LeavesOpen (back : ByteArray) (x : Decode Block) : Prop :=
  ∀ {s t u v : State} {id : UInt32} {b : Block}, s.cursor.pos ≤ s.cursor.bitLen →
    t.cursor = s.cursor.before back → x s = .error (.error (.unterminatedBlock id)) u →
    x t = .ok b v → ∃ bits g, g.id = id ∧
      OpenInBlock s.cursor.bitLen s.cursor.pos b.header b.items bits g ∧
      t.cursor.Takes bits v.cursor

theorem open_of_items {levels : Nat} {x : Decode Block} (hsound : BlockSound levels x)
    (hstays : Stays back DecodeError.IsCut x) (hopen : LeavesOpen back x)
    {hc : IsSteady (Block.toItem <$> x)} {h : Header} (hpos : 0 < h.abbrevWidth.toNat)
    (hle : h.abbrevWidth.toNat ≤ maxAbbrevWidth) (seen : List Item) (s t : State) {u v : State}
    {id : UInt32} {all : List Item} (hs : s.cursor.pos ≤ s.cursor.bitLen)
    (hst : t.cursor = s.cursor.before back)
    (herr : items (Block.toItem <$> x) hc h seen s = .error (.error (.unterminatedBlock id)) u)
    (hok : items (Block.toItem <$> x) hc h seen t = .ok all v) :
    id = h.id ∨ ∃ xs bits marker g, all = seen.reverse ++ xs ∧ g.id = id ∧
      OpenInItems s.cursor.bitLen h.abbrevWidth.toNat s.cursor.pos xs bits g ∧
      IsField h.abbrevWidth.toNat endBlock marker ∧ t.cursor.Takes (bits ++ marker) v.cursor := by
  -- along the rounds that are the same with and without the other bytes
  fun_induction items (Block.toItem <$> x) hc h seen s generalizing t with
  | case1 seen s e u' hm =>
    cases herr
    obtain ⟨_, _, hm', -⟩ := ok_of_items hok
    have hstop := (stays_marker h).stop_of_ok hst hm hm'
    exact .inl (DecodeError.unterminatedBlock.inj hstop)
  | case2 seen s u' hm => cases herr
  | case3 seen s m s₁ hm hid e u' hi =>
    cases herr
    obtain ⟨marker, hmarker, htake₁⟩ := (recognizes_marker hpos hle).sound hs hm
    obtain ⟨t₁, hm', hst₁⟩ := (stays_marker h).ok_of_ok hst hm
    obtain ⟨_, _, hm'', hrest⟩ := ok_of_items hok
    cases hm'.symm.trans hm''
    obtain ⟨i, t₂, hi', hok'⟩ := hrest hid
    by_cases hblock : m.toNat = enterSubblock
    · rw [item, if_pos hblock] at hi hi'
      obtain ⟨b, hb', rfl⟩ := ok_of_map hi'
      cases hb : x s₁ with
      | ok a w => cases (map_of_ok hb).symm.trans hi
      | error f w =>
        cases (map_of_error hb).symm.trans hi
        obtain ⟨block, g, hg, hin, htake₂⟩ := hopen htake₁.pos_le hst₁ hb hb'
        obtain ⟨xs, rest, ending, rfl, hxs, -, hending, htake₃⟩ :=
          takes_of_items hsound hpos hle _ t₂ htake₂.pos_le hok'
        have htake := (takes_before hst hst₁ htake₁).trans htake₂
        rw [htake₁.pos_eq, htake₁.bitLen_eq] at hin
        rw [htake.pos_eq, hst, Cursor.pos_before] at hxs
        exact .inr ⟨b.toItem :: xs, _, ending, g, by simp, hg,
          .block (hblock ▸ hmarker) hin hxs, hending, by simpa using htake.trans htake₃⟩
    · exact ((stays_leaf _ hblock).stop_of_ok hst₁ hi hi').elim
  | case4 seen s m s₁ hm hid i s₂ hi _ ih =>
    obtain ⟨marker, hmarker, htake₁⟩ := (recognizes_marker hpos hle).sound hs hm
    obtain ⟨t₁, hm', hst₁⟩ := (stays_marker h).ok_of_ok hst hm
    obtain ⟨t₂, hi', hst₂⟩ := (stays_item (.map _ hstays) m).ok_of_ok hst₁ hi
    rw [items_of_item hm' hid hi'] at hok
    by_cases hblock : m.toNat = enterSubblock
    · rw [item, if_pos hblock] at hi
      obtain ⟨b, hb, rfl⟩ := ok_of_map hi
      obtain ⟨block, hwritten, -, htake₂⟩ := hsound htake₁.pos_le hb
      have htake := htake₁.trans htake₂
      refine (ih t₂ htake.pos_le hst₂ herr hok).imp_right ?_
      rintro ⟨xs, bits, ending, g, hall, hg, hin, hending, htake₃⟩
      rw [htake₁.pos_eq] at hwritten
      rw [htake.pos_eq, htake.bitLen_eq] at hin
      exact ⟨b.toItem :: xs, _, ending, g, by simpa using hall, hg,
        .behindBlock (hblock ▸ hmarker) hwritten hin, hending,
        by simpa using (takes_before hst hst₂ htake).trans htake₃⟩
    · obtain ⟨leaf, hleaf, htake₂⟩ := takes_of_leaf hblock hmarker htake₁.pos_le hi
      have htake := htake₁.trans htake₂
      refine (ih t₂ htake.pos_le hst₂ herr hok).imp_right ?_
      rintro ⟨xs, bits, ending, g, hall, hg, hin, hending, htake₃⟩
      rw [htake.pos_eq, htake.bitLen_eq] at hin
      exact ⟨i :: xs, _, ending, g, by simpa using hall, hg, .behindLeaf hleaf hin, hending,
        by simpa using (takes_before hst hst₂ htake).trans htake₃⟩

/-- A block that ends in front of the cut is read without the other bytes as well. -/
theorem cut_lt_of_error {levels : Nat} {s t u v : State} {h : Header} {body : List Item}
    {header inner ending : List Bool} {e : Fault DecodeError}
    (hheader : IsHeader s.cursor.pos h header)
    (hinner : IsItems h.abbrevWidth.toNat (s.cursor.pos + header.length) body inner)
    (hending : IsEnd h.abbrevWidth.toNat (s.cursor.pos + (header ++ inner).length) ending)
    (hlen : (inner ++ ending).length = 32 * h.lengthWords.toNat)
    (hdepth : Item.depthAll body < levels) (hst : t.cursor = s.cursor.before back)
    (htake : t.cursor.Takes (header ++ inner ++ ending) v.cursor)
    (herr : (block levels).val s = .error e u) :
    s.cursor.bitLen < s.cursor.pos + (header ++ inner ++ ending).length := by
  apply Nat.lt_of_not_le
  intro hend
  rw [hst] at htake
  have hin := Cursor.takes_of_before htake (htake.pos_eq.trans_le hend)
  obtain ⟨log, hread⟩ := (block_of_passes body hheader (passes_of_isItems hinner) hending hlen
    levels s rfl hin).1 hdepth
  cases hread.symm.trans herr

theorem leavesOpen_block (levels : Nat) : LeavesOpen back (block levels).val := by
  induction levels with
  | zero =>
    intro s t u v id b hs hst herr hok
    cases hok
  | succ levels ih =>
    intro s t u v id b hs hst herr hok
    have hat : t.cursor.pos = s.cursor.pos := by rw [hst, Cursor.pos_before]
    have ht : t.cursor.pos ≤ t.cursor.bitLen := by
      rw [hat, hst, Cursor.bitLen_before]
      exact Nat.le_trans hs (Nat.le_add_right ..)
    -- what the header, the items and the end are written as, with the other bytes
    obtain ⟨start, t₁, t₂, front, inner, marker, padding, ⟨hheader', hwritten, htake₁'⟩,
      ⟨hitems', hinner, hdepth, hmarker, htake₂⟩, hclose', hending, hlen, hblock⟩ :=
      parts_of_blockWith (blockSound_block levels) ht hok
    rw [hat] at hwritten hinner hending
    cases hheader : header s with
    | error e w =>
      cases (bind_of_error hheader).symm.trans herr
      exact (stays_header.stop_of_ok hst hheader hheader').elim
    | ok r s₁ =>
      obtain ⟨w, hw, hst₁⟩ := stays_header.ok_of_ok hst hheader
      cases hw.symm.trans hheader'
      obtain ⟨_, -, htake₁⟩ := recognizes_header.sound hs hheader
      obtain rfl := (takes_before hst hst₁ htake₁).unique htake₁'
      have hwidths := hwritten
      obtain ⟨_, _, _, _, _, hpos, hle, _, _⟩ := hwidths
      have hcut := cut_lt_of_error hwritten hinner hending hlen (Nat.lt_succ_of_le hdepth) hst
        hblock herr
      have hitself := OpenInBlock.itself hwritten hinner hending hlen htake₁.inside hcut
      have herr₁ := (bind_of_ok hheader).symm.trans herr
      cases hitems : nested levels b.header [] s₁ with
      | error e w =>
        cases (bind_of_error hitems).symm.trans herr₁
        rcases open_of_items (blockSound_block levels) (stays_block levels) ih hpos hle [] s₁ t₁
          htake₁.pos_le hst₁ hitems hitems' with rfl | hnested
        · exact ⟨_, b.header, rfl, hitself, hblock⟩
        · obtain ⟨xs, bits, marker', g, hall', hg, hin, hmarker', htake₂'⟩ := hnested
          obtain rfl : b.items = xs := hall'
          obtain ⟨rfl, rfl⟩ := List.append_inj' (htake₂'.unique htake₂)
            (hmarker'.length_eq.trans hmarker.length_eq.symm)
          rw [htake₁.pos_eq, htake₁.bitLen_eq] at hin
          exact ⟨_, g, hg, .within hwritten hin hending hlen, hblock⟩
      | ok all' s₂ =>
        obtain ⟨w, hw, hst₂⟩ :=
          (stays_items (.map _ (stays_block levels)) b.header []).ok_of_ok hst₁ hitems
        cases hw.symm.trans hitems'
        have herr₂ := (bind_of_ok hitems).symm.trans herr₁
        cases hclose : close b.header start s₂ with
        | ok _ s₃ => cases (bind_of_ok hclose).symm.trans herr₂
        | error e w =>
          cases (bind_of_error hclose).symm.trans herr₂
          have hstop := (stays_close b.header start).stop_of_ok hst₂ hclose hclose'
          cases hstop
          exact ⟨_, b.header, rfl, hitself, hblock⟩

theorem ok_of_blocks {seen all : List Block} {s v : State} (hgo : s.cursor.atEnd = false)
    (hok : blocks seen s = .ok all v) :
    ∃ b t, topLevel s = .ok b t ∧ blocks (b :: seen) t = .ok all v := by
  cases hb : topLevel s with
  | error e t => cases (blocks_of_error hgo hb).symm.trans hok
  | ok b t => exact ⟨b, t, rfl, (blocks_of_topLevel hgo hb).symm.trans hok⟩

theorem open_of_topLevel {s t u v : State} {id : UInt32} {b : Block}
    (hst : t.cursor = s.cursor.before back)
    (herr : topLevel s = .error (.error (.unterminatedBlock id)) u) (hok : topLevel t = .ok b v) :
    ∃ marker block g, IsField topLevelWidth enterSubblock marker ∧ g.id = id ∧
      OpenInBlock s.cursor.bitLen (s.cursor.pos + marker.length) b.header b.items block g ∧
      t.cursor.Takes (marker ++ block) v.cursor := by
  obtain ⟨m, t₁, hm', h₁⟩ := ok_of_bind hok
  obtain ⟨_, _, hr', h₂⟩ := ok_of_bind h₁
  obtain ⟨henter, rfl⟩ := ok_of_require hr'
  cases hm : read (Read.field topLevelWidth) s with
  | error e w =>
    cases (bind_of_error hm).symm.trans herr
    exact ((stays_read (Read.persists_field _)).stop_of_ok hst hm hm').elim
  | ok m' s₁ =>
    obtain ⟨w, hw, hst₁⟩ := (stays_read (Read.persists_field _)).ok_of_ok hst hm
    cases hw.symm.trans hm'
    obtain ⟨-, htake⟩ := Read.takes_of_field (ok_of_read hm)
    have hr : require (m.toNat = enterSubblock) (.unexpectedTopLevelItem m) s₁ = .ok () s₁ := by
      rw [require, if_pos henter]
      rfl
    have herr₁ := (bind_of_ok hr).symm.trans ((bind_of_ok hm).symm.trans herr)
    obtain ⟨block, g, hg, hin, htake'⟩ := leavesOpen_block maxDepth htake.pos_le hst₁ herr₁ h₂
    rw [htake.pos_eq, htake.bitLen_eq] at hin
    exact ⟨_, block, g, ⟨by decide, by rw [henter]⟩, hg, hin,
      (takes_before hst hst₁ htake).trans htake'⟩

theorem open_of_blocks (seen : List Block) (s t : State) {u v : State} {id : UInt32}
    {all : List Block} (hs : s.cursor.pos ≤ s.cursor.bitLen) (hst : t.cursor = s.cursor.before back)
    (herr : blocks seen s = .error (.error (.unterminatedBlock id)) u)
    (hok : blocks seen t = .ok all v) :
    ∃ bs bits g, all = seen.reverse ++ bs ∧ g.id = id ∧
      OpenInItems s.cursor.bitLen topLevelWidth s.cursor.pos (bs.map Block.toItem) bits g ∧
      t.cursor.Takes bits v.cursor ∧ v.cursor.pos = v.cursor.bitLen := by
  fun_induction blocks seen s generalizing t with
  | case1 seen s hend => cases herr
  | case2 seen s hend e w hb =>
    cases herr
    obtain ⟨b, t₁, hb', hok'⟩ := ok_of_blocks (atEnd_of_before hst (by simpa using hend)) hok
    obtain ⟨marker, block, g, hmarker, hg, hin, htake⟩ := open_of_topLevel hst hb hb'
    obtain ⟨bs, rest, rfl, hbs, -, htake', hstop⟩ := takes_of_blocks _ t₁ htake.pos_le hok'
    rw [htake.pos_eq, hst, Cursor.pos_before] at hbs
    exact ⟨b :: bs, _, g, by simp, hg, .block hmarker hin hbs, htake.trans htake', hstop⟩
  | case3 seen s hend b s₁ hb _ ih =>
    obtain ⟨t₁, hb', hst₁⟩ := stays_topLevel.ok_of_ok hst hb
    rw [blocks_of_topLevel (atEnd_of_before hst (by simpa using hend)) hb'] at hok
    obtain ⟨marker, block, hmarker, hblock, -, htake⟩ := takes_of_topLevel hb
    obtain ⟨bs, bits, g, rfl, hg, hin, htake', hstop⟩ := ih t₁ htake.pos_le hst₁ herr hok
    rw [htake.pos_eq, htake.bitLen_eq] at hin
    exact ⟨b :: bs, _, g, by simp, hg, .behindBlock hmarker hblock hin,
      (takes_before hst hst₁ htake).trans htake', hstop⟩

end Cut

section Streams

variable {p q x : ByteArray}

theorem exists_body_of_append (hsize : magic.size ≤ p.size) (h : hasMagic (p ++ q) = true) :
    ∃ x, p = magic ++ x := by
  have hfront : (p ++ q).extract 0 magic.size = magic := ByteArray.ext (eq_of_beq h)
  have hnone : q.extract 0 (magic.size - p.size) = ByteArray.empty := by
    rw [Nat.sub_eq_zero_of_le hsize, ByteArray.extract_same]
  rw [ByteArray.extract_append, Nat.zero_sub, hnone, ByteArray.append_empty] at hfront
  exact ⟨_, eq_append_of_extract hfront⟩

theorem decode_take_of_endsAt {S : Stream} {j : Nat} (hdepth : S.depth ≤ maxDepth)
    (h : S.EndsAt (magic ++ x ++ q) j (magic ++ x).size) :
    Stream.decode (magic ++ x) = .ok ⟨S.blocks.take j⟩ := by
  obtain ⟨-, body, front, back, hbody, hall, hfront, -, hsize⟩ := h
  rw [ByteArray.append_assoc] at hbody
  obtain rfl := append_left_cancel hbody
  rw [allBits_append] at hall
  have hlen : (allBits x).length = front.length := by
    rw [allBits, length_bitsAt]
    rw [ByteArray.size_append] at hsize
    omega
  obtain ⟨rfl, -⟩ := List.append_inj hall hlen
  have htake : S.items.take j = (⟨S.blocks.take j⟩ : Stream).items := (List.map_take ..).symm
  have hless : (⟨S.blocks.take j⟩ : Stream).depth ≤ maxDepth := by
    rw [Stream.depth, ← List.take_append_drop j S.items, Item.depthAll_append] at hdepth
    rw [Stream.depth, ← htake]
    exact (Nat.max_le.mp hdepth).1
  rw [htake] at hfront
  rw [decode_of_isItems hfront, if_pos hless]

theorem endsAt_of_decode {S T : Stream} (hS : Stream.decode (magic ++ x ++ q) = .ok S)
    (hT : Stream.decode (magic ++ x) = .ok T) :
    S.EndsAt (magic ++ x ++ q) T.blocks.length (magic ++ x).size := by
  obtain ⟨hdepth, body, hbody, hitems⟩ := isWritten_of_decode hT
  obtain rfl := append_left_cancel hbody
  obtain ⟨log, hrun⟩ := blocks_append q hitems hdepth
  rw [ByteArray.append_assoc] at hS ⊢
  rw [decode_magic_append, hrun] at hS
  split at hS
  · rename_i bs t hok
    cases hS
    have hfront := takes_allBits_append x q
    obtain ⟨bs, bits, rfl, hrest, -, htake, hend⟩ := takes_of_blocks _ _ hfront.pos_le hok
    have hlen : (allBits x).length = 8 * x.size := length_bitsAt ..
    have hall := eq_allBits_of_takes (hfront.trans htake) hend
    rw [← hlen] at hrest
    refine ⟨by simp, x ++ q, allBits x, bits, rfl, hall.symm, ?_, ?_, ?_⟩
    · simpa [Stream.items] using hitems
    · simpa [Stream.items] using hrest
    · rw [hlen, ByteArray.size_append, Nat.mul_add]
  · cases hS

theorem error_of_decode {e : DecodeError} (he : ¬ e.IsCut)
    (h : Stream.decode (magic ++ x) = .error (.error e)) :
    Stream.decode (magic ++ x ++ q) = .error (.error e) := by
  rw [ByteArray.append_assoc]
  rw [decode_magic_append] at h ⊢
  split at h
  · cases h
  · rename_i f t hf
    cases h
    obtain ⟨v, hv⟩ := error_of_blocks he [] _ { cursor := ⟨x ++ q, 0⟩ } rfl hf
    rw [hv]

theorem openAt_of_decode {S : Stream} {id : UInt32}
    (hS : Stream.decode (magic ++ x ++ q) = .ok S)
    (h : Stream.decode (magic ++ x) = .error (.error (.unterminatedBlock id))) :
    ∃ g, S.OpenAt (magic ++ x ++ q) (magic ++ x).size g ∧ g.id = id := by
  rw [ByteArray.append_assoc] at hS ⊢
  rw [decode_magic_append] at hS h
  split at h
  · cases h
  rename_i f u hf
  cases h
  split at hS
  · rename_i bs v hok
    cases hS
    obtain ⟨bs, bits, g, rfl, hg, hin, htake, hend⟩ :=
      open_of_blocks [] _ _ (Nat.zero_le _) rfl hf hok
    refine ⟨g, ⟨x ++ q, rfl, ?_⟩, hg⟩
    rw [ByteArray.size_append, Nat.add_sub_cancel_left, ← eq_allBits_of_takes htake hend]
    exact hin
  · cases hS

/-- What decoding makes of the first bytes of a stream: the blocks that have ended in them, if they
end with a block or are the magic bytes alone, and otherwise that they have ended, in a value or in
a block that is open at the cut. Any other error stays, whatever bytes follow. -/
theorem decode_truncated (p q : ByteArray) :
    (∀ S, Stream.decode (p ++ q) = .ok S → magic.size ≤ p.size →
      (∀ j, S.EndsAt (p ++ q) j p.size → Stream.decode p = .ok ⟨S.blocks.take j⟩) ∧
      ((¬ ∃ j, S.EndsAt (p ++ q) j p.size) →
        (∃ bit, Stream.decode p = .error (.error (.unexpectedEnd bit))) ∨
          ∃ g, S.OpenAt (p ++ q) p.size g ∧
            Stream.decode p = .error (.error (.unterminatedBlock g.id)))) ∧
    ∀ e, Stream.decode p = .error (.error e) → e ≠ .invalidMagic → ¬ e.IsCut →
      Stream.decode (p ++ q) = .error (.error e) := by
  constructor
  · intro S hS hsize
    have hmagic : hasMagic (p ++ q) = true := by
      apply Decidable.byContradiction
      intro hnone
      cases (decode_of_not_hasMagic hnone).symm.trans hS
    obtain ⟨x, rfl⟩ := exists_body_of_append hsize hmagic
    refine ⟨fun j hj ↦ decode_take_of_endsAt (isWritten_of_decode hS).1 hj, ?_⟩
    intro hcut
    rcases (decode_safe (magic ++ x)).1 with ⟨T, hT⟩ | ⟨e, he⟩
    · exact absurd ⟨_, endsAt_of_decode hS hT⟩ hcut
    · have hstop : e.IsCut := by
        apply Classical.byContradiction
        intro hnot
        cases (error_of_decode hnot he).symm.trans hS
      cases e with
      | unexpectedEnd bit => exact .inl ⟨bit, he⟩
      | unterminatedBlock id =>
        obtain ⟨g, hopen, rfl⟩ := openAt_of_decode hS he
        exact .inr ⟨g, hopen, he⟩
      | _ => exact hstop.elim
  · intro e h hmagic he
    by_cases hp : hasMagic p = true
    · obtain ⟨x, rfl⟩ := hasMagic_iff.mp hp
      exact error_of_decode he h
    · cases (decode_of_not_hasMagic hp).symm.trans h
      exact absurd rfl hmagic

theorem decode_truncated_at_body :
    Stream.decode magic = .ok ⟨[]⟩ ∧
    (∃ g, Stream.OpenAt ⟨[⟨⟨8, 3, 1⟩, [.record 1 [2]]⟩]⟩
      (magic ++ ⟨#[33, 12, 0, 0, 1, 0, 0, 0]⟩ ++ ⟨#[11, 2, 1, 0]⟩) 12 g ∧
      Stream.decode (magic ++ ⟨#[33, 12, 0, 0, 1, 0, 0, 0]⟩) =
        .error (.error (.unterminatedBlock g.id))) ∧
    Stream.decode (magic ++ ⟨#[0]⟩ ++ ⟨#[1]⟩) = .error (.error (.unexpectedTopLevelItem 0)) := by
  have hwhole : Stream.decode (magic ++ ⟨#[33, 12, 0, 0, 1, 0, 0, 0]⟩ ++ ⟨#[11, 2, 1, 0]⟩) =
      .ok ⟨[⟨⟨8, 3, 1⟩, [.record 1 [2]]⟩]⟩ := by
    have hbits : allBits (⟨#[33, 12, 0, 0, 1, 0, 0, 0]⟩ ++ ⟨#[11, 2, 1, 0]⟩) =
        ofItems topLevelWidth 0 [.block ⟨8, 3, 1⟩ [.record 1 [2]]] := by decide +kernel
    rw [ByteArray.append_assoc]
    refine (decode_of_ofItems (S := ⟨[⟨⟨8, 3, 1⟩, [.record 1 [2]]⟩]⟩) ?_ hbits).trans
      (if_pos (by decide))
    exact ⟨⟨by decide, by decide, by decide +kernel, trivial, trivial⟩, trivial⟩
  have hcut : Stream.decode (magic ++ ⟨#[33, 12, 0, 0, 1, 0, 0, 0]⟩) =
      .error (.error (.unterminatedBlock 8)) := by
    have htop : topLevel { cursor := ⟨⟨#[33, 12, 0, 0, 1, 0, 0, 0]⟩, 0⟩ } =
        .error (.error (.unterminatedBlock 8))
          ⟨⟨⟨#[33, 12, 0, 0, 1, 0, 0, 0]⟩, 64⟩, #[.opened 8 8 1]⟩ := by with_unfolding_all rfl
    rw [decode_magic_append, blocks_of_error (by decide) htop]
  have hbad : Stream.decode (magic ++ ⟨#[0]⟩) = .error (.error (.unexpectedTopLevelItem 0)) := by
    have htop : topLevel { cursor := ⟨⟨#[0]⟩, 0⟩ } =
        .error (.error (.unexpectedTopLevelItem 0)) { cursor := ⟨⟨#[0]⟩, 2⟩ } := by
      with_unfolding_all rfl
    rw [decode_magic_append, blocks_of_error (by decide) htop]
  refine ⟨?_, ?_, (decode_truncated _ _).2 _ hbad (by decide) not_false⟩
  · rw [ByteArray.append_assoc] at hwhole
    exact ((decode_truncated magic _).1 _ hwhole (Nat.le_refl _)).1 0
      (Stream.endsAt_zero (isWritten_of_decode hwhole))
  · have hends := (decode_truncated _ _).1 _ hwhole (by decide)
    rcases hends.2 (fun ⟨j, hj⟩ ↦ by cases (hends.1 j hj).symm.trans hcut) with ⟨bit, hbit⟩ | hopen
    · cases hbit.symm.trans hcut
    · exact hopen

end Streams

end Decode

end BlockStream
