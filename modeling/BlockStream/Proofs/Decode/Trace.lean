import BlockStream.Proofs.Decode.Canonical

namespace BlockStream

open Format Wire

mutual

/-- The blocks in an item as reading tells them, where the item stands at bit `pos` of a stream that
begins with the magic bytes. These are as long as a length word, so the body of a block begins as
far behind them as the length word in front of it does behind the start. -/
def Item.openings (width pos : Nat) : Item → List Event
  | .record .. | .definition _ => []
  | .block h body =>
    let word := pos + (opening pos width h.id h.abbrevWidth).length
    .opened h.id (word / 8) h.lengthWords ::
      Item.openingsAll h.abbrevWidth.toNat (word + 32) body
termination_by structural item => item

def Item.openingsAll (width pos : Nat) : List Item → List Event
  | [] => []
  | item :: rest =>
    item.openings width pos ++
      Item.openingsAll width (pos + (ofItem width pos item).length) rest
termination_by structural items => items

end

theorem Item.openings_of_flat {item : Item} (h : item.isBlock = false) (width pos : Nat) :
    item.openings width pos = [] := by
  cases item with
  | block => cases h
  | record | definition => rfl

theorem Item.openingsAll_of_flat {items : List Item} (h : ∀ item ∈ items, item.isBlock = false)
    (width pos : Nat) : Item.openingsAll width pos items = [] := by
  induction items generalizing pos with
  | nil => rfl
  | cons item rest ih =>
    rw [Item.openingsAll, Item.openings_of_flat (h item List.mem_cons_self), List.nil_append]
    exact ih (fun i hi ↦ h i (List.mem_cons_of_mem _ hi)) _

theorem Item.openingsAll_append (width pos : Nat) (xs ys : List Item) :
    Item.openingsAll width pos (xs ++ ys) =
      Item.openingsAll width pos xs ++
        Item.openingsAll width (pos + (ofItems width pos xs).length) ys := by
  induction xs generalizing pos with
  | nil => rfl
  | cons x xs ih =>
    rw [List.cons_append, Item.openingsAll, ih, Item.openingsAll, List.append_assoc, ofItems,
      List.length_append, Nat.add_assoc]

theorem Item.openingsAll_singleton (width pos : Nat) (item : Item) :
    Item.openingsAll width pos [item] = item.openings width pos := by
  rw [Item.openingsAll, Item.openingsAll, List.append_nil]

namespace Decode

/-- A computation that leaves no note where it succeeds. -/
structure IsQuiet {α : Type} (x : Decode α) : Prop where
  log_eq : ∀ {s t : State} {a : α}, x s = .ok a t → t.log = s.log

section Quiet

variable {α β : Type}

theorem Yields.quiet {x : Decode α} {s : State} {a : α} {d : Cursor} (h : Yields x s a d)
    (hx : IsQuiet x) : x s = .ok a ⟨d, s.log⟩ := by
  obtain ⟨log, hrun⟩ := h
  obtain rfl : log = s.log := hx.log_eq hrun
  exact hrun

namespace IsQuiet

theorem pure (a : α) : IsQuiet (pure a) where
  log_eq h := by
    cases h
    rfl

theorem fail (e : DecodeError) : IsQuiet (fail e : Decode α) where
  log_eq h := by cases h

theorem bind {x : Decode α} {f : α → Decode β} (hx : IsQuiet x) (hf : ∀ a, IsQuiet (f a)) :
    IsQuiet (x >>= f) where
  log_eq h := by
    obtain ⟨a, u, ha, hb⟩ := ok_of_bind h
    exact ((hf a).log_eq hb).trans (hx.log_eq ha)

theorem map (f : α → β) {x : Decode α} (hx : IsQuiet x) : IsQuiet (f <$> x) where
  log_eq h := by
    obtain ⟨a, ha, -⟩ := ok_of_map h
    exact hx.log_eq ha

theorem read (x : Read α) : IsQuiet (read x) where
  log_eq h := by
    simp only [Decode.read] at h
    split at h <;> cases h
    rfl

theorem readOr (e : DecodeError) (x : Read α) : IsQuiet (readOr e x) where
  log_eq h := by
    simp only [Decode.readOr] at h
    split at h <;> cases h
    rfl

theorem require (p : Prop) [Decidable p] (e : DecodeError) : IsQuiet (require p e) where
  log_eq h := congrArg State.log (ok_of_require h).2

theorem difference (m n : Nat) : IsQuiet (difference m n) where
  log_eq h := congrArg State.log (ok_of_difference h).2.2

theorem repeated {x : Decode α} (hx : IsQuiet x) (count : Nat) (seen : List α) :
    IsQuiet (repeated x count seen) := by
  induction count generalizing seen with
  | zero => exact .pure _
  | succ count ih => exact .bind hx fun a ↦ ih (a :: seen)

end IsQuiet

theorem quiet_operandWidth : IsQuiet operandWidth :=
  .bind (.read _) fun _ ↦ .bind (.require _ _) fun _ ↦ .pure _

theorem quiet_encoded : IsQuiet encoded := by
  refine .bind (.read _) fun tag ↦ ?_
  split
  · exact .fail _
  · exact .map _ quiet_operandWidth
  · exact .map _ quiet_operandWidth
  · exact .pure _
  · exact .pure _
  · exact .pure _

theorem quiet_operand : IsQuiet operand := by
  refine .bind (.read _) fun literal ↦ ?_
  split
  · exact .map _ (.read _)
  · exact quiet_encoded

theorem quiet_definition : IsQuiet definition :=
  .bind (.read _) fun _ ↦ .bind (.repeated quiet_operand _ _) fun _ ↦ .pure _

theorem quiet_record : IsQuiet record :=
  .bind (.read _) fun _ ↦ .bind (.read _) fun _ ↦
    .bind (.repeated (.read _) _ _) fun _ ↦ .pure _

theorem quiet_marker (h : Header) : IsQuiet (marker h) := by
  have hget : IsQuiet (get : Decode State) := ⟨fun h ↦ by cases h; rfl⟩
  exact .bind hget fun _ ↦ .bind (.require _ _) fun _ ↦ .readOr _ _

theorem quiet_close (h : Header) (start : Nat) : IsQuiet (close h start) :=
  .bind (.readOr _ _) fun _ ↦ .bind (.read _) fun _ ↦
    .bind (.difference _ _) fun _ ↦ .require _ _

theorem log_of_leaf {x : Decode Block} {id : UInt64} {s t : State} {i : Item}
    (h : item (Block.toItem <$> x) id s = .ok i t) (hflat : i.isBlock = false) :
    t.log = s.log := by
  unfold item at h
  split at h
  · obtain ⟨b, -, rfl⟩ := ok_of_map h
    cases hflat
  · split at h
    · exact quiet_definition.log_eq h
    split at h
    · exact quiet_record.log_eq h
    · cases h

theorem log_of_header {s t : State} {h : Header} {start : Nat}
    (hrun : header s = .ok (h, start) t) :
    t.log = s.log.push (.opened h.id start h.lengthWords) := by
  obtain ⟨id, s₁, h₁, hrun⟩ := ok_of_bind hrun
  obtain ⟨_, s₂, h₂, hrun⟩ := ok_of_bind hrun
  obtain ⟨width, s₃, h₃, hrun⟩ := ok_of_bind hrun
  obtain ⟨_, s₄, h₄, hrun⟩ := ok_of_bind hrun
  obtain ⟨_, s₅, h₅, hrun⟩ := ok_of_bind hrun
  obtain ⟨words, s₆, h₆, hrun⟩ := ok_of_bind hrun
  obtain ⟨offset, s₇, h₇, hrun⟩ := ok_of_bind hrun
  obtain ⟨_, s₈, hnote, hrun⟩ := ok_of_bind hrun
  cases hnote
  cases hrun
  rw [← (IsQuiet.read _).log_eq h₁, ← (IsQuiet.require _ _).log_eq h₂,
    ← (IsQuiet.read _).log_eq h₃, ← (IsQuiet.require _ _).log_eq h₄,
    ← (IsQuiet.read _).log_eq h₅, ← (IsQuiet.read _).log_eq h₆, ← (IsQuiet.read _).log_eq h₇]

end Quiet

section Told

/-- Decoding goes on behind the canonical form of these items, with the blocks in them in its log.
The positions that reading counts from leave the magic bytes out. -/
def Tells (width pos : Nat) (xs : List Item) : Prop :=
  ∀ (levels : Nat) (h : Header) (seen : List Item) (s : State) (d : Cursor),
    h.abbrevWidth.toNat = width → width ≤ maxAbbrevWidth → s.cursor.pos = pos →
    s.cursor.Takes (ofItems width pos xs) d → Item.depthAll xs ≤ levels →
      nested levels h seen s = nested levels h (xs.reverse ++ seen)
        ⟨d, s.log ++ (Item.openingsAll width (pos + 32) xs).toArray⟩

theorem block_of_told {h : Header} {body : List Item} {header inner marker padding : List Bool}
    {events : Array Event} {levels : Nat} {s : State} {d : Cursor}
    (hheader : IsHeader s.cursor.pos h header)
    (hinner : ∀ u c, u.cursor.pos = s.cursor.pos + header.length → u.cursor.Takes inner c →
      nested levels h [] u = nested levels h (body.reverse ++ []) ⟨c, u.log ++ events⟩)
    (hmarker : IsField h.abbrevWidth.toNat endBlock marker)
    (hpadding : IsPadding (s.cursor.pos + header.length + inner.length + marker.length) padding)
    (hlength : (inner ++ (marker ++ padding)).length = 32 * h.lengthWords.toNat)
    (htake : s.cursor.Takes (header ++ (inner ++ (marker ++ padding))) d) :
    (block (levels + 1)).val s = .ok ⟨h, body⟩ ⟨d,
      s.log.push (.opened h.id ((s.cursor.pos + header.length) / 8) h.lengthWords) ++ events⟩ := by
  have haligned := hheader.aligned
  have hstop := hpadding.2
  have hwidths := hheader
  obtain ⟨_, _, _, _, _, hpos, hle, _, _⟩ := hwidths
  obtain ⟨c₁, hc₁, hrest⟩ := htake.split
  obtain ⟨c₂, hc₂, hrest⟩ := hrest.split
  obtain ⟨c₃, hc₃, hc₄⟩ := hrest.split
  have hat : c₃.pos = s.cursor.pos + header.length + inner.length + marker.length := by
    rw [hc₃.pos_eq, hc₂.pos_eq, hc₁.pos_eq]
  simp only [List.length_append] at hlength
  obtain ⟨log, hread⟩ := recognizes_header.complete (a := (h, _)) ⟨hheader, rfl⟩ hc₁
  rw [← show log = s.log.push _ from log_of_header hread]
  have hitems := hinner ⟨c₁, log⟩ c₂ hc₁.pos_eq hc₂
  have hend := ((recognizes_marker hpos hle).complete (s := ⟨c₂, log ++ events⟩) (a := 0) hmarker
    hc₃).quiet (quiet_marker h)
  have hclose := ((recognizes_close h ((s.cursor.pos + header.length) / 8)).complete
    (s := ⟨c₃, log ++ events⟩) (a := ())
    ⟨hat ▸ hpadding, by dsimp only; omega, by dsimp only; omega⟩ hc₄).quiet (quiet_close ..)
  refine (bind_of_ok hread).trans ((bind_of_ok (hitems.trans (items_of_end hend))).trans ?_)
  refine (bind_of_ok hclose).trans ?_
  rw [List.append_nil, List.reverse_reverse]
  rfl

theorem openings_of_header {width pos : Nat} {h : Header} {header : List Bool}
    (hfront : opening pos width h.id h.abbrevWidth ++ bitsOf 32 h.lengthWords.toNat =
      bitsOf width enterSubblock ++ header) (body : List Item) :
    (Item.block h body).openings width (pos + 32) =
      .opened h.id ((pos + width + header.length) / 8) h.lengthWords ::
        Item.openingsAll h.abbrevWidth.toNat (pos + width + header.length + 32) body := by
  have hlength := congrArg List.length hfront
  simp only [List.length_append, length_bitsOf] at hlength
  have hopening := opening_congr (Nat.add_mod_right pos 32) width h.id h.abbrevWidth
  simp only [Item.openings]
  rw [hopening, show pos + 32 + (opening pos width h.id h.abbrevWidth).length =
    pos + width + header.length by omega]

theorem block_of_regular (width pos : Nat) {h : Header} {body : List Item}
    (hregular : Regular (.block h body)) (hbody : ∀ p, Tells h.abbrevWidth.toNat p body) :
    ∃ content, ofItem width pos (.block h body) = bitsOf width enterSubblock ++ content ∧
      ∀ {levels : Nat} {s : State} {d : Cursor}, Item.depthAll body < levels →
        s.cursor.pos = pos + width → s.cursor.Takes content d →
          (block levels).val s = .ok ⟨h, body⟩
            ⟨d, s.log ++ ((Item.block h body).openings width (pos + 32)).toArray⟩ := by
  obtain ⟨header, hheader, hfront, hlength, -⟩ := exists_parts_of_regular hregular width pos
  obtain ⟨hlow, hle, -, -⟩ := hregular
  have haligned := hheader.aligned
  have hopenings := openings_of_header hfront body
  -- the body begins at bit `p`
  obtain ⟨p, hp⟩ : ∃ p, pos + width + header.length = p := ⟨_, rfl⟩
  rw [hp] at haligned hopenings
  have hat : pos + (bitsOf width enterSubblock ++ header).length = p := by
    rw [List.length_append, length_bitsOf, ← Nat.add_assoc, hp]
  have hwords := hlength p haligned
  obtain ⟨marker, padding, hmarker, hpadding, hclosing⟩ :=
    isEnd_closing (p + (ofItems h.abbrevWidth.toNat p body).length) hlow
  rw [hclosing] at hwords
  refine ⟨header ++ (ofItems h.abbrevWidth.toNat p body ++ (marker ++ padding)), ?_, ?_⟩
  · simp only [ofItem]
    rw [hfront, hat, List.length_append, ← Nat.add_assoc, hat, hclosing]
    simp only [List.append_assoc]
  · intro levels s d hdepth hs htake
    have hbegin : s.cursor.pos + header.length = p := by rw [hs, hp]
    cases levels with
    | zero => exact absurd hdepth (Nat.not_lt_zero _)
    | succ levels =>
      have hinner (u : State) (c : Cursor) (hu : u.cursor.pos = s.cursor.pos + header.length)
          (hc : u.cursor.Takes (ofItems h.abbrevWidth.toNat p body) c) :=
        hbody p levels h [] u c rfl hle (hu.trans hbegin) hc (Nat.le_of_lt_succ hdepth)
      have hrun := block_of_told (hs ▸ hheader) hinner hmarker (by rwa [hbegin]) hwords htake
      rw [hrun, hbegin, hopenings]
      simp

theorem Tells.append {width pos : Nat} {xs ys : List Item} (hxs : Tells width pos xs)
    (hys : Tells width (pos + (ofItems width pos xs).length) ys) : Tells width pos (xs ++ ys) := by
  intro levels h seen s d hw hle hs htake hdepth
  subst hs
  rw [ofItems_append] at htake
  rw [Item.depthAll_append] at hdepth
  obtain ⟨c, hc, hd⟩ := htake.split
  have hcongr := ofItems_congr (Nat.add_mod_right s.cursor.pos 32) width xs
  rw [hxs levels h seen s c hw hle rfl hc (by omega),
    hys levels h _ _ d hw hle hc.pos_eq hd (by omega), Item.openingsAll_append, hcongr]
  simp [Nat.add_right_comm]

theorem tells_leaf {width : Nat} (hw : 2 ≤ width) {item : Item} (hflat : item.isBlock = false)
    (hregular : Regular item) (hparts : parts item < 2 ^ 64) (pos : Nat) :
    Tells width pos [item] := by
  intro levels h seen s d hwidth hle hs htake _
  subst hwidth
  rw [ofItems_singleton] at htake
  obtain ⟨id, marker, content, hbits, hid, hmarker, hyields⟩ :=
    yields_leaf (Block.toItem <$> (block levels).val) (isLeaf_ofItem hflat hw pos hregular hparts)
  rw [hbits] at htake
  obtain ⟨c, hc, hd⟩ := htake.split
  have hread := ((recognizes_marker (by omega) hle).complete (s := s) hmarker hc).quiet
    (quiet_marker h)
  obtain ⟨log, hitem⟩ := hyields (s := ⟨c, s.log⟩) hd
  obtain rfl : log = s.log := log_of_leaf hitem hflat
  rw [Item.openingsAll_singleton, Item.openings_of_flat hflat]
  exact (items_of_item hread hid hitem).trans (by simp)

theorem tells_block {width : Nat} (hw : 2 ≤ width) {h : Header} {body : List Item}
    (hregular : Regular (.block h body)) (hbody : ∀ p, Tells h.abbrevWidth.toNat p body)
    (pos : Nat) : Tells width pos [.block h body] := by
  intro levels g seen s d hwidth hle hs htake hdepth
  subst hwidth
  obtain ⟨content, hbits, hrun⟩ := block_of_regular g.abbrevWidth.toNat pos hregular hbody
  rw [ofItems_singleton, hbits] at htake
  obtain ⟨c, hc, hd⟩ := htake.split
  have hread := ((recognizes_marker (by omega) hle).complete (s := s) (a := 1)
    (isField_marker hw (by decide)) hc).quiet (quiet_marker g)
  have hlt : Item.depthAll body < levels := by
    rw [Item.depthAll, Item.depth] at hdepth
    omega
  have hblock := hrun (s := ⟨c, s.log⟩) hlt (by rw [hc.pos_eq, hs, length_bitsOf]) hd
  rw [Item.openingsAll_singleton]
  exact items_of_item hread (by decide) (map_of_ok hblock)

theorem tells_ofItems {width : Nat} (hw : 2 ≤ width) (items : List Item) (pos : Nat)
    (hregular : AllRegular items) (hparts : ∀ item ∈ items, parts item < 2 ^ 64) :
    Tells width pos items := by
  match items with
  | [] =>
    intro levels h seen s d _ _ _ htake _
    obtain ⟨rfl, -, -⟩ := htake
    simp [ofItems, Item.openingsAll]
  | item :: rest =>
    have hrest (p : Nat) := tells_ofItems hw rest p hregular.2
      fun i hi ↦ hparts i (List.mem_cons_of_mem _ hi)
    -- it is enough to tell the first item, as the rest is told from any position
    suffices hitem : Tells width pos [item] from hitem.append (hrest _)
    match item with
    | .record .. | .definition _ =>
      exact tells_leaf hw rfl hregular.1 (hparts _ List.mem_cons_self) pos
    | .block h body =>
      obtain ⟨-, -, -, -, hfits⟩ := exists_parts_of_regular hregular.1 width pos
      obtain ⟨hlow, -, -, hbody⟩ := hregular.1
      exact tells_block hw hregular.1 (fun p ↦ tells_ofItems hlow body p hbody hfits) pos
termination_by sizeOf items

theorem tells_body {h : Header} {body : List Item} (hregular : Regular (.block h body))
    (pos : Nat) : Tells h.abbrevWidth.toNat pos body := by
  obtain ⟨-, -, -, -, hfits⟩ := exists_parts_of_regular hregular 0 0
  obtain ⟨hlow, -, -, hbody⟩ := hregular
  exact tells_ofItems hlow body pos hbody hfits

theorem blocks_of_regular (bs seen : List Block) (s : State) {d : Cursor}
    (hregular : AllRegular (bs.map Block.toItem))
    (htake : s.cursor.Takes (ofItems topLevelWidth s.cursor.pos (bs.map Block.toItem)) d)
    (hdepth : Item.depthAll (bs.map Block.toItem) ≤ maxDepth) :
    blocks seen s = blocks (bs.reverse ++ seen) ⟨d, s.log ++
      (Item.openingsAll topLevelWidth (s.cursor.pos + 32) (bs.map Block.toItem)).toArray⟩ := by
  induction bs generalizing seen s with
  | nil =>
    obtain ⟨rfl, -, -⟩ := htake
    simp [ofItems, Item.openingsAll]
  | cons b bs ih =>
    rw [List.map_cons] at hregular htake hdepth ⊢
    rw [ofItems] at htake
    rw [Item.depthAll] at hdepth
    obtain ⟨c, hc, hd⟩ := htake.split
    obtain ⟨content, hbits, hrun⟩ :=
      block_of_regular topLevelWidth s.cursor.pos hregular.1 (tells_body hregular.1)
    have hmarked : s.cursor.Takes (bitsOf topLevelWidth enterSubblock ++ content) c := hbits ▸ hc
    obtain ⟨c₁, hc₁, hc₂⟩ := hmarked.split
    obtain ⟨hgo, htop⟩ := topLevel_of_marker ⟨by decide, rfl⟩ hc₁
    have hlt : Item.depthAll b.items < maxDepth := by
      have hitem : b.toItem.depth = Item.depthAll b.items + 1 := rfl
      omega
    have hblock := hrun (s := ⟨c₁, s.log⟩) hlt (by rw [hc₁.pos_eq, length_bitsOf]) hc₂
    have hcongr := ofItem_congr (Nat.add_mod_right s.cursor.pos 32) topLevelWidth b.toItem
    rw [blocks_of_topLevel hgo (htop.trans hblock),
      ih _ _ hregular.2 (by rwa [← hc.pos_eq] at hd) (by omega), Item.openingsAll, hcongr]
    simp [Block.toItem, hc.pos_eq, Nat.add_right_comm]

end Told

section Streams

theorem run_of_ofItems {S : Stream} {body : ByteArray} (hregular : AllRegular S.items)
    (hdepth : S.depth ≤ maxDepth) (h : allBits body = ofItems topLevelWidth 0 S.items) :
    run (magic ++ body) = (.ok S, (Item.openingsAll topLevelWidth 32 S.items).toArray) := by
  have htake := takes_allBits body
  rw [h] at htake
  rw [run, if_pos (hasMagic_iff.mpr ⟨body, rfl⟩), slice_magic_append]
  have hrun := blocks_of_regular S.blocks [] ⟨⟨body, 0⟩, #[]⟩ hregular htake hdepth
  dsimp only
  rw [hrun, blocks_of_atEnd rfl]
  simp [Stream.items]

end Streams

end Decode

end BlockStream
