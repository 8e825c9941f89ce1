import BlockStream.Decode.Stream
import BlockStream.Proofs.Decode.Parts

namespace BlockStream.Decode

open Format Wire

section Leaves

variable {child : Decode Item} {width : Nat}

theorem takes_of_leaf {id : UInt64} {marker : List Bool} {s t : State} {i : Item}
    (hid : id.toNat ≠ enterSubblock) (hmarker : IsField width id.toNat marker)
    (hs : s.cursor.pos ≤ s.cursor.bitLen) (h : item child id s = .ok i t) :
    ∃ bits, IsLeaf width i (marker ++ bits) ∧ s.cursor.Takes bits t.cursor := by
  rw [item, if_neg hid] at h
  split at h
  · rename_i hdef
    obtain ⟨bits, ⟨layout, rfl, hbits⟩, htake⟩ := recognizes_definition.sound hs h
    exact ⟨bits, .definition (hdef ▸ hmarker) hbits, htake⟩
  split at h
  · rename_i hrec
    obtain ⟨bits, ⟨code, operands, rfl, hbits⟩, htake⟩ := recognizes_record.sound hs h
    exact ⟨bits, .record (hrec ▸ hmarker) hbits, htake⟩
  · cases h

theorem yields_leaf (child : Decode Item) {i : Item} {bits : List Bool} (h : IsLeaf width i bits) :
    ∃ (id : UInt64) (marker rest : List Bool), bits = marker ++ rest ∧ id ≠ 0 ∧
      IsField width id.toNat marker ∧
      ∀ {s : State} {d : Cursor}, s.cursor.Takes rest d → Yields (item child id) s i d := by
  cases h with
  | @definition layout marker bits hmarker hbits =>
    exact ⟨2, marker, bits, rfl, by decide, hmarker, fun htake ↦
      recognizes_definition.complete ⟨layout, rfl, hbits⟩ htake⟩
  | @record code operands marker bits hmarker hbits =>
    exact ⟨3, marker, bits, rfl, by decide, hmarker, fun htake ↦
      recognizes_record.complete ⟨code, operands, rfl, hbits⟩ htake⟩

end Leaves

section Sound

def BlockSound (levels : Nat) (x : Decode Block) : Prop :=
  ∀ {s t : State} {b : Block}, s.cursor.pos ≤ s.cursor.bitLen → x s = .ok b t →
    ∃ bits, IsBlock s.cursor.pos b.header b.items bits ∧ Item.depthAll b.items < levels ∧
      s.cursor.Takes bits t.cursor

theorem takes_of_items {levels : Nat} {x : Decode Block} (hx : BlockSound levels x)
    {hc : IsSteady (Block.toItem <$> x)} {h : Header} (hpos : 0 < h.abbrevWidth.toNat)
    (hle : h.abbrevWidth.toNat ≤ maxAbbrevWidth) (seen : List Item) (s : State) {t : State}
    {all : List Item} (hs : s.cursor.pos ≤ s.cursor.bitLen)
    (hok : items (Block.toItem <$> x) hc h seen s = .ok all t) :
    ∃ xs bits marker, all = seen.reverse ++ xs ∧
      IsItems h.abbrevWidth.toNat s.cursor.pos xs bits ∧ Item.depthAll xs ≤ levels ∧
      IsField h.abbrevWidth.toNat endBlock marker ∧ s.cursor.Takes (bits ++ marker) t.cursor := by
  -- along the rounds of the loop
  fun_induction items (Block.toItem <$> x) hc h seen s with
  | case1 seen s e u hm => cases hok
  | case2 seen s u hm =>
    cases hok
    obtain ⟨marker, hmarker, htake⟩ := (recognizes_marker hpos hle).sound hs hm
    exact ⟨[], [], marker, by simp, .nil .., Nat.zero_le _, hmarker, htake⟩
  | case3 seen s id u hm hid e v hi => cases hok
  | case4 seen s id u hm hid i v hi _ ih =>
    obtain ⟨marker, hmarker, htake⟩ := (recognizes_marker hpos hle).sound hs hm
    by_cases hblock : id.toNat = enterSubblock
    · rw [item, if_pos hblock] at hi
      obtain ⟨b, hb, rfl⟩ := ok_of_map hi
      obtain ⟨block, hwritten, hdepth, htake'⟩ := hx htake.pos_le hb
      obtain ⟨xs, rest, ending, rfl, hxs, hdepths, hending, htake''⟩ := ih htake'.pos_le hok
      have hcons := IsItems.cons_block (hblock ▸ hmarker) (htake.pos_eq ▸ hwritten)
        (by rwa [(htake.trans htake').pos_eq] at hxs)
      refine ⟨b.toItem :: xs, marker ++ block ++ rest, ending, by simp, hcons, ?_, hending, ?_⟩
      · exact Nat.max_le.mpr ⟨hdepth, hdepths⟩
      · simpa using (htake.trans htake').trans htake''
    · obtain ⟨bits, hleaf, htake'⟩ := takes_of_leaf hblock hmarker htake.pos_le hi
      obtain ⟨xs, rest, ending, rfl, hxs, hdepths, hending, htake''⟩ := ih htake'.pos_le hok
      have hcons := IsItems.leaf hleaf (by rwa [(htake.trans htake').pos_eq] at hxs)
      refine ⟨i :: xs, marker ++ bits ++ rest, ending, by simp, hcons, ?_, hending, ?_⟩
      · exact Nat.max_le.mpr ⟨hleaf.depth_eq ▸ Nat.zero_le _, hdepths⟩
      · simpa using (htake.trans htake').trans htake''

theorem isEnd_of_close {h : Header} {pos start : Nat} {header inner marker : List Bool}
    {s t : State}
    {u : Unit} (hheader : IsHeader pos h header) (hstart : start = (pos + header.length) / 8)
    (hmarker : IsField h.abbrevWidth.toNat endBlock marker)
    (hpos : s.cursor.pos = pos + (header ++ inner ++ marker).length)
    (hs : s.cursor.pos ≤ s.cursor.bitLen) (hclose : close h start s = .ok u t) :
    ∃ padding, IsEnd h.abbrevWidth.toNat (pos + (header ++ inner).length) (marker ++ padding) ∧
      (inner ++ (marker ++ padding)).length = 32 * h.lengthWords.toNat ∧
      s.cursor.Takes padding t.cursor := by
  obtain ⟨padding, ⟨hpadding, hlow, hlength⟩, htake⟩ := (recognizes_close h start).sound hs hclose
  have haligned := hheader.aligned
  rw [hpos] at hpadding hlow hlength
  refine ⟨padding, ⟨marker, padding, hmarker, ?_, rfl⟩, ?_, htake⟩
  · simpa [Nat.add_assoc] using hpadding
  · have hstop := hpadding.2
    simp only [List.length_append] at hstop hlow hlength ⊢
    omega

/-- A block that has been read, by its parts: how each is read, and the bits it is written in. -/
theorem parts_of_blockWith {levels : Nat} {x : Decode Block} (hx : BlockSound levels x)
    {hc : IsSteady (Block.toItem <$> x)} {s t : State} {b : Block}
    (hs : s.cursor.pos ≤ s.cursor.bitLen) (hok : blockWith (Block.toItem <$> x) hc s = .ok b t) :
    ∃ start s₁ s₂ front inner marker padding,
      (header s = .ok (b.header, start) s₁ ∧ IsHeader s.cursor.pos b.header front ∧
        s.cursor.Takes front s₁.cursor) ∧
      (items (Block.toItem <$> x) hc b.header [] s₁ = .ok b.items s₂ ∧
        IsItems b.header.abbrevWidth.toNat (s.cursor.pos + front.length) b.items inner ∧
        Item.depthAll b.items ≤ levels ∧
        IsField b.header.abbrevWidth.toNat endBlock marker ∧
        s₁.cursor.Takes (inner ++ marker) s₂.cursor) ∧
      close b.header start s₂ = .ok () t ∧
      IsEnd b.header.abbrevWidth.toNat (s.cursor.pos + (front ++ inner).length)
        (marker ++ padding) ∧
      (inner ++ (marker ++ padding)).length = 32 * b.header.lengthWords.toNat ∧
      s.cursor.Takes (front ++ inner ++ (marker ++ padding)) t.cursor := by
  obtain ⟨⟨h, start⟩, s₁, hheader, h₁⟩ := ok_of_bind hok
  obtain ⟨front, ⟨hwritten, hstart⟩, htake₁⟩ := recognizes_header.sound hs hheader
  obtain ⟨all, s₂, hitems, h₂⟩ := ok_of_bind h₁
  have hwidths := hwritten
  obtain ⟨_, _, _, _, _, hpos, hle, _, _⟩ := hwidths
  obtain ⟨xs, inner, marker, hall, hinner, hdepth, hmarker, htake₂⟩ :=
    takes_of_items hx hpos hle [] s₁ htake₁.pos_le hitems
  obtain rfl : all = xs := hall
  obtain ⟨_, s₃, hclose, h₃⟩ := ok_of_bind h₂
  have htake := htake₁.trans htake₂
  rw [← List.append_assoc] at htake
  obtain ⟨padding, hending, hlen, htake₃⟩ :=
    isEnd_of_close hwritten hstart hmarker htake.pos_eq htake.pos_le hclose
  cases h₃
  rw [htake₁.pos_eq] at hinner
  exact ⟨start, s₁, s₂, front, inner, marker, padding, ⟨hheader, hwritten, htake₁⟩,
    ⟨hitems, hinner, hdepth, hmarker, htake₂⟩, hclose, hending, hlen,
    by simpa using htake.trans htake₃⟩

theorem blockSound_blockWith {levels : Nat} {x : Decode Block} (hx : BlockSound levels x)
    (hc : IsSteady (Block.toItem <$> x)) :
    BlockSound (levels + 1) (blockWith (Block.toItem <$> x) hc) := by
  intro s t b hs hok
  obtain ⟨_, _, _, front, inner, _, _, ⟨-, hwritten, -⟩, ⟨-, hinner, hdepth, -⟩, -, hending, hlen,
    htake⟩ := parts_of_blockWith hx hs hok
  exact ⟨_, ⟨front, inner, _, hwritten, hinner, hending, hlen, rfl⟩, Nat.lt_succ_of_le hdepth,
    htake⟩

theorem blockSound_block (levels : Nat) : BlockSound levels (block levels).val := by
  induction levels with
  | zero =>
    intro s t b hs hok
    cases hok
  | succ levels ih => exact blockSound_blockWith ih _

theorem takes_of_topLevel {s t : State} {b : Block} (hok : topLevel s = .ok b t) :
    ∃ marker block, IsField topLevelWidth enterSubblock marker ∧
      IsBlock (s.cursor.pos + marker.length) b.header b.items block ∧
      Item.depthAll b.items < maxDepth ∧ s.cursor.Takes (marker ++ block) t.cursor := by
  obtain ⟨id, s₁, hid, h₁⟩ := ok_of_bind hok
  obtain ⟨hlt, htake⟩ := Read.takes_of_field (ok_of_read hid)
  obtain ⟨_, _, hr, h₂⟩ := ok_of_bind h₁
  obtain ⟨henter, rfl⟩ := ok_of_require hr
  obtain ⟨block, hblock, hdepth, htake'⟩ := blockSound_block maxDepth htake.pos_le h₂
  rw [htake.pos_eq] at hblock
  exact ⟨_, block, ⟨by decide, by rw [henter]⟩, hblock, hdepth, htake.trans htake'⟩

theorem takes_of_blocks (seen : List Block) (s : State) {t : State} {all : List Block}
    (hs : s.cursor.pos ≤ s.cursor.bitLen) (hok : blocks seen s = .ok all t) :
    ∃ bs bits, all = seen.reverse ++ bs ∧
      IsItems topLevelWidth s.cursor.pos (bs.map Block.toItem) bits ∧
      Item.depthAll (bs.map Block.toItem) ≤ maxDepth ∧ s.cursor.Takes bits t.cursor ∧
      t.cursor.pos = t.cursor.bitLen := by
  fun_induction blocks seen s with
  | case1 seen s hend =>
    have hle : s.cursor.bitLen ≤ s.cursor.pos := of_decide_eq_true hend
    cases hok
    exact ⟨[], [], by simp, .nil .., Nat.zero_le _, .refl hs, Nat.le_antisymm hs hle⟩
  | case2 seen s hend e u htop => cases hok
  | case3 seen s hend b u htop _ ih =>
    obtain ⟨marker, block, hmarker, hblock, hdepth, htake⟩ := takes_of_topLevel htop
    obtain ⟨bs, rest, rfl, hbs, hdepths, htake', hstop⟩ := ih htake.pos_le hok
    have hcons := IsItems.cons_block hmarker hblock (by rwa [htake.pos_eq] at hbs)
    refine ⟨b :: bs, _, by simp, hcons, ?_, htake.trans htake', hstop⟩
    exact Nat.max_le.mpr ⟨hdepth, hdepths⟩

end Sound

section Complete

theorem steady_nested (levels : Nat) : IsSteady (Block.toItem <$> (block levels).val) :=
  .map _ (block levels).property

abbrev nested (levels : Nat) (h : Header) (seen : List Item) : Decode (List Item) :=
  items (Block.toItem <$> (block levels).val) (steady_nested levels) h seen

def tooDeep : Fault DecodeError := .error (.nestingTooDeep maxDepth)

/-- Decoding goes on behind these items, with them in its list, or refuses them for their depth
alone. -/
def Passes (width pos : Nat) (xs : List Item) (bits : List Bool) : Prop :=
  ∀ (levels : Nat) (h : Header) (seen : List Item) (s : State) (d : Cursor),
    h.abbrevWidth.toNat = width → 0 < width → width ≤ maxAbbrevWidth → s.cursor.pos = pos →
    s.cursor.Takes bits d →
    (Item.depthAll xs ≤ levels →
      ∃ log, nested levels h seen s = nested levels h (xs.reverse ++ seen) ⟨d, log⟩) ∧
    (levels < Item.depthAll xs → ∃ t, nested levels h seen s = .error tooDeep t)

theorem block_of_marker {pos : Nat} {h : Header} {body : List Item}
    {header inner marker : List Bool}
    (hheader : IsHeader pos h header)
    (hinner : Passes h.abbrevWidth.toNat (pos + header.length) body inner)
    (hmarker : IsField h.abbrevWidth.toNat endBlock marker) {levels : Nat}
    (hdepth : Item.depthAll body ≤ levels) {s : State} {d : Cursor} (hs : s.cursor.pos = pos)
    (htake : s.cursor.Takes (header ++ inner ++ marker) d) :
    ∃ log, (block (levels + 1)).val s =
      (close h ((pos + header.length) / 8) >>= fun _ ↦ pure ⟨h, body⟩) ⟨d, log⟩ := by
  subst hs
  have hwidths := hheader
  obtain ⟨_, _, _, _, _, hpos, hle, _, _⟩ := hwidths
  obtain ⟨c₂, hc₂, hc₃⟩ := htake.split
  obtain ⟨c₁, hc₁, hc₂⟩ := hc₂.split
  obtain ⟨log₁, hread⟩ := recognizes_header.complete (a := (h, _)) ⟨hheader, rfl⟩ hc₁
  obtain ⟨log₂, hitems⟩ :=
    (hinner levels h [] ⟨c₁, log₁⟩ c₂ rfl hpos hle hc₁.pos_eq hc₂).1 hdepth
  obtain ⟨log₃, hend⟩ :=
    (recognizes_marker hpos hle).complete (s := ⟨c₂, log₂⟩) (a := 0) hmarker hc₃
  refine ⟨log₃, (bind_of_ok hread).trans ?_⟩
  refine (bind_of_ok (hitems.trans (items_of_end hend))).trans ?_
  rw [List.append_nil, List.reverse_reverse]

theorem block_of_header {pos : Nat} {h : Header} {header inner : List Bool}
    {e : Fault DecodeError} {levels : Nat} (hheader : IsHeader pos h header)
    {s : State} {c : Cursor} (hs : s.cursor.pos = pos) (htake : s.cursor.Takes (header ++ inner) c)
    (herr : ∀ u : State, u.cursor.pos = pos + header.length → u.cursor.Takes inner c →
      ∃ t, nested levels h [] u = .error e t) :
    ∃ t, (block (levels + 1)).val s = .error e t := by
  subst hs
  obtain ⟨c₁, hc₁, hc₂⟩ := htake.split
  obtain ⟨log, hread⟩ := recognizes_header.complete (a := (h, _)) ⟨hheader, rfl⟩ hc₁
  obtain ⟨t, ht⟩ := herr ⟨c₁, log⟩ hc₁.pos_eq hc₂
  exact ⟨t, (bind_of_ok hread).trans (bind_of_error ht)⟩

theorem block_of_passes {pos : Nat} {h : Header} (body : List Item)
    {header inner ending : List Bool} (hheader : IsHeader pos h header)
    (hinner : Passes h.abbrevWidth.toNat (pos + header.length) body inner)
    (hending : IsEnd h.abbrevWidth.toNat (pos + (header ++ inner).length) ending)
    (hlen : (inner ++ ending).length = 32 * h.lengthWords.toNat) (levels : Nat) (s : State)
    {d : Cursor} (hs : s.cursor.pos = pos) (htake : s.cursor.Takes (header ++ inner ++ ending) d) :
    (Item.depthAll body < levels → Yields (block levels).val s ⟨h, body⟩ d) ∧
    (levels ≤ Item.depthAll body → ∃ t, (block levels).val s = .error tooDeep t) := by
  cases levels with
  | zero => exact ⟨fun hlt ↦ absurd hlt (Nat.not_lt_zero _), fun _ ↦ ⟨s, rfl⟩⟩
  | succ levels =>
    constructor
    · intro hlt
      obtain ⟨marker, padding, hmarker, hpadding, rfl⟩ := hending
      rw [← List.append_assoc] at htake hlen
      obtain ⟨c, hc, hd⟩ := htake.split
      obtain ⟨log, hrun⟩ := block_of_marker hheader hinner hmarker (Nat.le_of_lt_succ hlt) hs hc
      have hstart := hheader.aligned
      have hat := hc.pos_eq
      simp only [List.length_append] at hat hlen hpadding
      have hclosed : IsPadding c.pos padding := by rwa [hat, hs, ← Nat.add_assoc]
      have hstop := hclosed.2
      obtain ⟨log', hclose⟩ := (recognizes_close h ((pos + header.length) / 8)).complete
        (s := ⟨c, log⟩) (a := ()) ⟨hclosed, by dsimp only; omega, by dsimp only; omega⟩ hd
      exact ⟨log', hrun.trans (bind_of_ok hclose)⟩
    · intro hge
      have hwidths := hheader
      obtain ⟨_, _, _, _, _, hpos, hle, _, _⟩ := hwidths
      obtain ⟨c, hc, -⟩ := htake.split
      refine block_of_header hheader hs hc fun u hu hbody ↦ ?_
      exact (hinner levels h [] u c rfl hpos hle hu hbody).2 hge

theorem passes_of_isItems {width pos : Nat} {xs : List Item} {bits : List Bool}
    (h : IsItems width pos xs bits) : Passes width pos xs bits := by
  induction h with
  | nil width pos =>
    intro levels h seen s d hw hpos hle hs htake
    obtain ⟨rfl, -, -⟩ := htake
    exact ⟨fun _ ↦ ⟨s.log, rfl⟩, fun hlt ↦ absurd hlt (Nat.not_lt_zero _)⟩
  | @leaf width pos i xs bits rest hleaf _ ih =>
    intro levels h seen s d hw hpos hle hs htake
    subst hw hs
    obtain ⟨c, hc, hd⟩ := htake.split
    obtain ⟨id, marker, content, rfl, hid, hmarker, hyields⟩ :=
      yields_leaf (Block.toItem <$> (block levels).val) hleaf
    obtain ⟨c₁, hc₁, hc₂⟩ := hc.split
    obtain ⟨log₁, hread⟩ := (recognizes_marker hpos hle).complete (s := s) hmarker hc₁
    obtain ⟨log₂, hitem⟩ := hyields (s := ⟨c₁, log₁⟩) hc₂
    have hround : nested levels h seen s = nested levels h (i :: seen) ⟨c, log₂⟩ :=
      items_of_item hread hid hitem
    have hrest := ih levels h (i :: seen) ⟨c, log₂⟩ d rfl hpos hle hc.pos_eq hd
    rw [Item.depthAll, hleaf.depth_eq, Nat.zero_max, hround, List.reverse_cons,
      List.append_assoc]
    exact hrest
  | @block width pos h body xs marker header inner ending rest hmarker hheader _ hending hlen _
      ihBody ihRest =>
    intro levels g seen s d hw hpos hle hs htake
    subst hw hs
    obtain ⟨c, hc, hd⟩ := htake.split
    have hc' : s.cursor.Takes (marker ++ (header ++ inner ++ ending)) c := by simpa using hc
    obtain ⟨c₁, hc₁, hc₂⟩ := hc'.split
    obtain ⟨log₁, hread⟩ := (recognizes_marker hpos hle).complete (s := s) (a := 1) hmarker hc₁
    have hblock := block_of_passes body hheader
      (by simpa [Nat.add_assoc] using ihBody) (by simpa [Nat.add_assoc] using hending) hlen
      levels ⟨c₁, log₁⟩ hc₁.pos_eq hc₂
    have hdepth : Item.depthAll (.block h body :: xs) =
        max (Item.depthAll body + 1) (Item.depthAll xs) := rfl
    rw [hdepth]
    rcases Nat.lt_or_ge (Item.depthAll body) levels with hlt | hge
    · obtain ⟨log₂, hitem⟩ := hblock.1 hlt
      have hround : nested levels g seen s =
          nested levels g (.block h body :: seen) ⟨c, log₂⟩ :=
        items_of_item hread (by decide) (map_of_ok hitem)
      have hrest := ihRest levels g (.block h body :: seen) ⟨c, log₂⟩ d rfl hpos hle hc.pos_eq hd
      rw [hround, List.reverse_cons, List.append_assoc]
      exact ⟨fun hmax ↦ hrest.1 (by omega), fun hmax ↦ hrest.2 (by omega)⟩
    · obtain ⟨t, hitem⟩ := hblock.2 hge
      refine ⟨fun hmax ↦ by omega, fun _ ↦ ⟨t, ?_⟩⟩
      exact items_of_error hread (by decide) (map_of_error hitem)

theorem topLevel_of_marker {s : State} {marker : List Bool} {c : Cursor}
    (hmarker : IsField topLevelWidth enterSubblock marker) (htake : s.cursor.Takes marker c) :
    s.cursor.atEnd = false ∧ topLevel s = (block maxDepth).val ⟨c, s.log⟩ := by
  constructor
  · have hin := htake.inside
    rw [hmarker.length_eq] at hin
    have hlt : s.cursor.pos < s.cursor.bitLen := Nat.lt_of_lt_of_le
      (Nat.lt_add_of_pos_right (by decide)) hin
    exact decide_eq_false (Nat.not_le.mpr hlt)
  · have hread := Read.field_of_takes (hmarker.2 ▸ htake) (by decide) hmarker.1
    refine (bind_of_ok (a := (1 : UInt64)) (t := ⟨c, s.log⟩) ?_).trans (bind_of_ok rfl)
    simp only [read, hread]
    rfl

theorem blocks_of_isItems (bs seen : List Block) (s : State) {bits : List Bool} {d : Cursor}
    (h : IsItems topLevelWidth s.cursor.pos (bs.map Block.toItem) bits)
    (htake : s.cursor.Takes bits d) :
    (Item.depthAll (bs.map Block.toItem) ≤ maxDepth →
      ∃ log, blocks seen s = blocks (bs.reverse ++ seen) ⟨d, log⟩) ∧
    (maxDepth < Item.depthAll (bs.map Block.toItem) → ∃ t, blocks seen s = .error tooDeep t) := by
  induction bs generalizing seen s bits with
  | nil =>
    cases h
    obtain ⟨rfl, -, -⟩ := htake
    exact ⟨fun _ ↦ ⟨s.log, rfl⟩, fun hlt ↦ absurd hlt (Nat.not_lt_zero _)⟩
  | cons b bs ih =>
    cases h with
    | leaf hleaf _ => cases hleaf
    | @block _ _ h body _ marker header inner ending rest hmarker hheader hinner hending hlen
        hrest =>
      obtain ⟨c, hc, hd⟩ := htake.split
      have hc' : s.cursor.Takes (marker ++ (header ++ inner ++ ending)) c := by simpa using hc
      obtain ⟨c₁, hc₁, hc₂⟩ := hc'.split
      obtain ⟨hgo, htop⟩ := topLevel_of_marker hmarker hc₁
      have hblock := block_of_passes b.items hheader
        (by simpa [Nat.add_assoc] using passes_of_isItems hinner)
        (by simpa [Nat.add_assoc] using hending) hlen
        maxDepth ⟨c₁, s.log⟩ hc₁.pos_eq hc₂
      have hdepth : Item.depthAll ((b :: bs).map Block.toItem) =
          max (Item.depthAll b.items + 1) (Item.depthAll (bs.map Block.toItem)) := rfl
      rw [hdepth]
      rcases Nat.lt_or_ge (Item.depthAll b.items) maxDepth with hlt | hge
      · obtain ⟨log, hb⟩ := hblock.1 hlt
        have hnext := ih (b :: seen) ⟨c, log⟩ (by rwa [← hc.pos_eq] at hrest) hd
        rw [blocks_of_topLevel hgo (htop.trans hb), List.reverse_cons, List.append_assoc]
        exact ⟨fun hmax ↦ hnext.1 (by omega), fun hmax ↦ hnext.2 (by omega)⟩
      · obtain ⟨t, hb⟩ := hblock.2 hge
        exact ⟨fun hmax ↦ by omega, fun _ ↦ ⟨t, blocks_of_error hgo (htop.trans hb)⟩⟩

theorem blocks_of_atEnd {seen : List Block} {s : State} (h : s.cursor.pos = s.cursor.bitLen) :
    blocks seen s = .ok seen.reverse s := by
  have hstop : s.cursor.atEnd = true := decide_eq_true (Nat.le_of_eq h.symm)
  rw [blocks, if_pos hstop]

end Complete

section Streams

theorem hasMagic_iff {bytes : ByteArray} :
    hasMagic bytes = true ↔ ∃ body, bytes = magic ++ body := by
  constructor
  · intro h
    have hfront : bytes.extract 0 magic.size = magic := ByteArray.ext (eq_of_beq h)
    exact ⟨_, eq_append_of_extract hfront⟩
  · rintro ⟨body, rfl⟩
    rw [hasMagic, ByteArray.extract_append_size_left]
    exact beq_self_eq_true magic.data

theorem decode_of_not_hasMagic {bytes : ByteArray} (h : ¬ hasMagic bytes = true) :
    Stream.decode bytes = .error (.error .invalidMagic) := by
  rw [Stream.decode, run, if_neg h]

theorem slice_magic_append (body : ByteArray) {ε : Type} :
    (slice (magic ++ body) magic.size (magic ++ body).size : Except (Fault ε) ByteArray) =
      .ok body := by
  have hsize : (magic ++ body).size = magic.size + body.size := ByteArray.size_append
  rw [slice, if_pos ⟨by omega, Nat.le_refl _⟩, ByteArray.extract_append_eq_right rfl hsize]

theorem decode_magic_append (body : ByteArray) :
    Stream.decode (magic ++ body) =
      match blocks [] { cursor := { bytes := body } } with
      | .ok bs _ => .ok ⟨bs⟩
      | .error e _ => .error e := by
  rw [Stream.decode, run, if_pos (hasMagic_iff.mpr ⟨body, rfl⟩), slice_magic_append]
  dsimp only
  cases blocks [] { cursor := { bytes := body } } with
  | ok bs t => rfl
  | error e t => rfl

theorem takes_allBits (body : ByteArray) :
    Cursor.Takes ⟨body, 0⟩ (allBits body) ⟨body, 8 * body.size⟩ := by
  refine ⟨?_, ?_, ?_⟩
  · simp [allBits]
  · simp [allBits]
  · simp [allBits, Cursor.bitLen]

theorem eq_allBits_of_takes {body : ByteArray} {bits : List Bool} {d : Cursor}
    (h : Cursor.Takes ⟨body, 0⟩ bits d) (hend : d.pos = d.bitLen) : bits = allBits body := by
  have hlen : bits.length = 8 * body.size := by
    rw [h.end_eq] at hend
    simpa [Cursor.bitLen] using hend
  rw [← h.bits_eq, hlen]
  rfl

/-- A written stream is read, unless its blocks are nested too deep. -/
theorem decode_of_isItems {S : Stream} {body : ByteArray}
    (h : IsItems topLevelWidth 0 S.items (allBits body)) :
    Stream.decode (magic ++ body) = if S.depth ≤ maxDepth then .ok S else .error tooDeep := by
  have hblocks := blocks_of_isItems S.blocks [] ⟨⟨body, 0⟩, #[]⟩ h (takes_allBits body)
  rw [decode_magic_append]
  rcases Nat.lt_or_ge maxDepth S.depth with hdeep | hdepth
  · obtain ⟨t, ht⟩ := hblocks.2 hdeep
    rw [ht, if_neg (Nat.not_le.mpr hdeep)]
  · obtain ⟨log, ht⟩ := hblocks.1 hdepth
    rw [ht, blocks_of_atEnd rfl, if_pos hdepth]
    simp

theorem isWritten_of_decode {S : Stream} {bytes : ByteArray} (h : Stream.decode bytes = .ok S) :
    S.IsWritten bytes := by
  by_cases hmagic : hasMagic bytes = true
  · obtain ⟨body, rfl⟩ := hasMagic_iff.mp hmagic
    rw [decode_magic_append] at h
    split at h
    · rename_i bs t hok
      cases h
      obtain ⟨bs, bits, rfl, hitems, hdepth, htake, hend⟩ :=
        takes_of_blocks [] _ (Nat.zero_le _) hok
      exact ⟨hdepth, body, rfl, eq_allBits_of_takes htake hend ▸ hitems⟩
    · cases h
  · rw [decode_of_not_hasMagic hmagic] at h
    cases h

/-- Decoding yields a stream exactly where the bytes are one of the ways to write it. -/
theorem decode_eq_ok_iff (bytes : ByteArray) (S : Stream) :
    Stream.decode bytes = .ok S ↔ S.IsWritten bytes := by
  constructor
  · exact isWritten_of_decode
  · rintro ⟨hdepth, body, rfl, hitems⟩
    rw [decode_of_isItems hitems, if_pos hdepth]

end Streams

end BlockStream.Decode
