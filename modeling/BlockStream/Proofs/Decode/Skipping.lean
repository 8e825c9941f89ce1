import BlockStream.Proofs.Cursor.Leaves
import BlockStream.Proofs.Decode.Canonical
import BlockStream.Proofs.Decode.Safe
import BlockStream.Proofs.Decode.Shift

namespace BlockStream

mutual

/-- An item in which the chosen blocks have lost their items. -/
def Item.prune (chosen : Place → Bool) (place : Place) : Item → Item
  | .block h items => .block h (if chosen place then [] else Item.pruneAll chosen place 0 items)
  | .record code operands => .record code operands
  | .definition layout => .definition layout
termination_by structural item => item

def Item.pruneAll (chosen : Place → Bool) (place : Place) (n : Nat) : List Item → List Item
  | [] => []
  | item :: rest => item.prune chosen (n :: place) :: Item.pruneAll chosen place (n + 1) rest
termination_by structural items => items

end

def Block.prune (chosen : Place → Bool) (place : Place) (b : Block) : Block :=
  ⟨b.header, if chosen place then [] else Item.pruneAll chosen place 0 b.items⟩

def Stream.prune (chosen : Place → Bool) (S : Stream) : Stream :=
  ⟨S.blocks.mapIdx fun n ↦ Block.prune chosen [n]⟩

theorem Block.toItem_prune (chosen : Place → Bool) (place : Place) (b : Block) :
    (b.prune chosen place).toItem = b.toItem.prune chosen place := rfl

theorem Block.prune_of_chosen {chosen : Place → Bool} {place : Place} (h : chosen place = true)
    (b : Block) : b.prune chosen place = ⟨b.header, []⟩ := by rw [prune, if_pos h]

theorem Block.prune_of_not_chosen {chosen : Place → Bool} {place : Place}
    (h : chosen place = false) (b : Block) :
    b.prune chosen place = ⟨b.header, Item.pruneAll chosen place 0 b.items⟩ := by
  rw [prune, h]
  rfl

namespace Decode

open Format Wire

section Reader

def itemsAt (child : Nat → Decode Item) (hc : ∀ n, IsSteady (child n)) (h : Header)
    (seen : List Item) : Decode (List Item) := fun s ↦
  match hm : marker h s with
  | .error e t => .error e t
  | .ok id t =>
    if hid : id = 0 then .ok seen.reverse t
    else
      match hi : item (child seen.length) id t with
      | .error e u => .error e u
      | .ok i u =>
        have : u.cursor.left < s.cursor.left := left_lt_of_item (hc _) hm hid hi
        itemsAt child hc h (i :: seen) u
termination_by s => s.cursor.left

theorem steady_itemsAt {child : Nat → Decode Item} (hc : ∀ n, IsSteady (child n)) (h : Header)
    (seen : List Item) : IsSteady (itemsAt child hc h seen) := by
  intro s
  fun_induction itemsAt child hc h seen s with
  | case1 seen s e t hm => exact (steady_marker h).of_eq hm
  | case2 seen s t hm => exact (steady_marker h).of_eq hm
  | case3 seen s id t hm hid e u hi =>
    exact ((steady_marker h).of_eq hm).trans ((steady_item (hc _) id).of_eq hi)
  | case4 seen s id t hm hid i u hi _ ih =>
    exact (((steady_marker h).of_eq hm).trans ((steady_item (hc _) id).of_eq hi)).trans ih

theorem itemsAt_of_end {child : Nat → Decode Item} {hc : ∀ n, IsSteady (child n)} {h : Header}
    {seen : List Item} {s t : State} (hm : marker h s = .ok 0 t) :
    itemsAt child hc h seen s = .ok seen.reverse t := by
  rw [itemsAt]
  split
  · rename_i e _ he
    cases hm.symm.trans he
  · rename_i id _ hid
    cases hm.symm.trans hid
    rfl

theorem itemsAt_of_item {child : Nat → Decode Item} {hc : ∀ n, IsSteady (child n)} {h : Header}
    {seen : List Item} {s t u : State} {id : UInt64} {i : Item} (hm : marker h s = .ok id t)
    (hid : id ≠ 0) (hi : item (child seen.length) id t = .ok i u) :
    itemsAt child hc h seen s = itemsAt child hc h (i :: seen) u := by
  rw [itemsAt]
  split
  · rename_i e _ he
    cases hm.symm.trans he
  · rename_i hok
    cases hm.symm.trans hok
    rw [dif_neg hid]
    split
    · rename_i he
      cases hi.symm.trans he
    · rename_i hok
      cases hi.symm.trans hok
      rfl

/-- What stands behind a block's header: read as decoding does, or jumped over by the length
word. -/
def bodyAt (skipped : Bool) (child : Nat → Decode Item) (hc : ∀ n, IsSteady (child n)) (h : Header)
    (bodyStart : Nat) : Decode (List Item) :=
  if skipped then do
    read (Read.skip (8 * (4 * h.lengthWords.toNat)))
    return []
  else do
    let items ← itemsAt child hc h []
    close h bodyStart
    return items

def blockAt (skipped : Bool) (child : Nat → Decode Item) (hc : ∀ n, IsSteady (child n)) :
    Decode Block := do
  let (h, bodyStart) ← header
  return ⟨h, ← bodyAt skipped child hc h bodyStart⟩

theorem steady_blockAt (skipped : Bool) {child : Nat → Decode Item}
    (hc : ∀ n, IsSteady (child n)) : IsSteady (blockAt skipped child hc) := by
  refine .bind steady_header fun r ↦ .bind ?_ fun _ ↦ .pure _
  refine .ite (.bind (steady_read (Read.steady_skip _)) fun _ ↦ .pure _) ?_
  exact .bind (steady_itemsAt hc _ _) fun _ ↦ .bind (steady_close _ _) fun _ ↦ .pure _

/-- Like `block`, but the bodies of the chosen blocks are jumped over. -/
def skim (chosen : Place → Bool) : Nat → Place → { x : Decode Block // IsSteady x }
  | 0, _ => ⟨fail (.nestingTooDeep maxDepth), .throw _⟩
  | levels + 1, place =>
    let child := fun n ↦ skim chosen levels (n :: place)
    ⟨blockAt (chosen place) (fun n ↦ Block.toItem <$> (child n).val)
      fun n ↦ .map _ (child n).property, steady_blockAt _ _⟩

theorem steady_skimmed (chosen : Place → Bool) (levels : Nat) (place : Place) (n : Nat) :
    IsSteady (Block.toItem <$> (skim chosen levels (n :: place)).val) :=
  .map _ (skim chosen levels (n :: place)).property

theorem skim_succ (chosen : Place → Bool) (levels : Nat) (place : Place) :
    (skim chosen (levels + 1) place).val =
      blockAt (chosen place) _ (steady_skimmed chosen levels place) := rfl

def topLevelAt (chosen : Place → Bool) (n : Nat) : Decode Block := do
  let id ← read (Read.field topLevelWidth)
  require (id.toNat = enterSubblock) (.unexpectedTopLevelItem id)
  (skim chosen maxDepth [n]).val

theorem left_lt_of_topLevelAt {chosen : Place → Bool} {n : Nat} {s t : State} {b : Block}
    (h : topLevelAt chosen n s = .ok b t) : t.cursor.left < s.cursor.left :=
  left_lt_of_marked (skim chosen maxDepth [n]).property h

def blocksAt (chosen : Place → Bool) (seen : List Block) : Decode (List Block) := fun s ↦
  if s.cursor.atEnd then .ok seen.reverse s
  else
    match h : topLevelAt chosen seen.length s with
    | .error e t => .error e t
    | .ok b t =>
      have : t.cursor.left < s.cursor.left := left_lt_of_topLevelAt h
      blocksAt chosen (b :: seen) t
termination_by s => s.cursor.left

theorem blocksAt_of_topLevelAt {chosen : Place → Bool} {seen : List Block} {s t : State} {b : Block}
    (hend : s.cursor.atEnd = false) (h : topLevelAt chosen seen.length s = .ok b t) :
    blocksAt chosen seen s = blocksAt chosen (b :: seen) t := by
  rw [blocksAt, if_neg (by simp [hend])]
  split
  · rename_i he
    cases h.symm.trans he
  · rename_i hok
    cases h.symm.trans hok
    rfl

end Reader

end Decode

/-- Read a stream as decoding does, but for the bodies of the chosen blocks, and tell how many bits
have been passed. -/
def Stream.skim (chosen : Place → Bool) (bytes : ByteArray) :
    Except (Fault DecodeError) (Stream × Nat) :=
  if Decode.hasMagic bytes then
    match slice bytes Format.magic.size bytes.size with
    | .error e => .error e
    | .ok body =>
      match Decode.blocksAt chosen [] { cursor := { bytes := body } } with
      | .ok bs s => .ok (⟨bs⟩, 8 * Format.magic.size + s.cursor.pos)
      | .error e _ => .error e
  else .error (.error .invalidMagic)

namespace Decode

open Format Wire

section Agreement

variable {α β γ δ : Type} {P : α → β → Prop} {Q : γ → δ → Prop} {x : Decode α} {y : Decode β}

/-- Where `x` succeeds, so does `y`, with a related value and at the same place. -/
def Agrees (P : α → β → Prop) (x : Decode α) (y : Decode β) : Prop :=
  ∀ ⦃s t u : State⦄ ⦃a : α⦄, s.cursor.Within → t.cursor = s.cursor → x s = .ok a u →
    ∃ b v, y t = .ok b v ∧ P a b ∧ v.cursor = u.cursor

theorem Agrees.map {f : α → γ} {g : β → δ} (h : Agrees P x y) (k : ∀ a b, P a b → Q (f a) (g b)) :
    Agrees Q (f <$> x) (g <$> y) := by
  intro s t u c hs hst hok
  obtain ⟨a, ha, rfl⟩ := ok_of_map hok
  obtain ⟨b, v, hb, hab, hv⟩ := h hs hst ha
  exact ⟨g b, v, map_of_ok hb, k a b hab, hv⟩

theorem agrees_of_moves (h : Moves ByteArray.empty P x y) : Agrees P x y := by
  have hbehind (c : Cursor) : c.behind ByteArray.empty = c := by simp [Cursor.behind]
  intro s t u a _ hst hok
  obtain ⟨b, v, hb, hab, hv⟩ := h.ok_of_ok (hst.trans (hbehind _).symm) hok
  exact ⟨b, v, hb, hab, hv.trans (hbehind _)⟩

end Agreement

section Leaves

variable {chosen : Place → Bool} {place : Place}

theorem agrees_definition : Agrees (fun i j ↦ j = i.prune chosen place) definition definition := by
  intro s t u i hs hst hok
  obtain ⟨_, ⟨layout, rfl, -⟩, -⟩ := recognizes_definition.sound hs hok
  obtain ⟨_, v, hv, rfl, hat⟩ := agrees_of_moves moves_definition hs hst hok
  exact ⟨_, v, hv, rfl, hat⟩

theorem agrees_record : Agrees (fun i j ↦ j = i.prune chosen place) record record := by
  intro s t u i hs hst hok
  obtain ⟨_, ⟨code, operands, rfl, -⟩, -⟩ := recognizes_record.sound hs hok
  obtain ⟨_, v, hv, rfl, hat⟩ := agrees_of_moves moves_record hs hst hok
  exact ⟨_, v, hv, rfl, hat⟩

theorem agrees_item {child child' : Decode Item}
    (hc : Agrees (fun i j ↦ j = i.prune chosen place) child child') (id : UInt64) :
    Agrees (fun i j ↦ j = i.prune chosen place) (item child id) (item child' id) := by
  unfold item
  split
  · exact hc
  split
  · exact agrees_definition
  split
  · exact agrees_record
  · intro s t u i hs hst hok
    cases hok

end Leaves

section Nesting

variable (chosen : Place → Bool)

theorem itemsAt_of_items {place : Place} {child : Decode Item} {child' : Nat → Decode Item}
    (hagrees : ∀ n, Agrees (fun i j ↦ j = i.prune chosen (n :: place)) child (child' n))
    (hsafe : ∀ s, s.cursor.Within → IsSafe child s fun _ _ ↦ True)
    (hc : IsSteady child) (hc' : ∀ n, IsSteady (child' n)) {h : Header}
    (hw : h.abbrevWidth.toNat ≤ maxAbbrevWidth) (seen seen' : List Item)
    (hseen : seen'.length = seen.length) (s : State) {t u : State} {all : List Item}
    (hs : s.cursor.Within) (hst : t.cursor = s.cursor) (hok : items child hc h seen s = .ok all u) :
    ∃ xs v, all = seen.reverse ++ xs ∧
      itemsAt child' hc' h seen' t =
        .ok (seen'.reverse ++ Item.pruneAll chosen place seen.length xs) v ∧
      v.cursor = u.cursor := by
  -- along the rounds of the loop
  fun_induction items child hc h seen s generalizing seen' t with
  | case1 seen s e s₁ hm => cases hok
  | case2 seen s s₁ hm =>
    cases hok
    obtain ⟨_, t₁, hm', rfl, ht₁⟩ := agrees_of_moves (moves_marker h) hs hst hm
    refine ⟨[], t₁, by simp, ?_, ht₁⟩
    rw [itemsAt_of_end hm', Item.pruneAll, List.append_nil]
  | case3 seen s id s₁ hm hid e s₂ hi => cases hok
  | case4 seen s id s₁ hm hid i s₂ hi _ ih =>
    have hs₁ := (safe_marker hw hs).within_of_ok hm
    have hs₂ := (safe_item hsafe id hs₁).within_of_ok hi
    obtain ⟨_, t₁, hm', rfl, ht₁⟩ := agrees_of_moves (moves_marker h) hs hst hm
    obtain ⟨j, t₂, hi', hj, ht₂⟩ := agrees_item (hagrees seen.length) id hs₁ ht₁ hi
    rw [← hseen] at hi'
    obtain ⟨xs, v, rfl, hrest, hv⟩ := ih (j :: seen') (by simp [hseen]) hs₂ ht₂ hok
    refine ⟨i :: xs, v, by simp, ?_, hv⟩
    rw [itemsAt_of_item hm' hid hi', hrest, hj]
    simp [Item.pruneAll]

theorem blockAt_of_isBlock {child' : Nat → Decode Item} {s t u : State} {b : Block}
    (hc' : ∀ n, IsSteady (child' n)) {bits : List Bool}
    (hb : IsBlock s.cursor.pos b.header b.items bits) (htake : s.cursor.Takes bits u.cursor)
    (hst : t.cursor = s.cursor) :
    ∃ v, blockAt true child' hc' t = .ok ⟨b.header, []⟩ v ∧ v.cursor = u.cursor := by
  obtain ⟨header, inner, ending, hheader, -, -, hlen, rfl⟩ := hb
  rw [List.append_assoc] at htake
  rw [← hst] at hheader htake
  obtain ⟨c, hc, hd⟩ := htake.split
  obtain ⟨log, hread⟩ := recognizes_header.complete (a := (b.header, _)) ⟨hheader, rfl⟩ hc
  have hwords : 8 * (4 * b.header.lengthWords.toNat) = (inner ++ ending).length := by omega
  have hskip : read (Read.skip (8 * (4 * b.header.lengthWords.toNat))) ⟨c, log⟩ =
      .ok () ⟨u.cursor, log⟩ := by
    rw [hwords, read, Read.skip_of_takes hd]
  refine ⟨⟨u.cursor, log⟩, ?_, rfl⟩
  refine (bind_of_ok hread).trans (bind_of_ok ?_)
  rw [bodyAt, if_pos rfl]
  exact bind_of_ok hskip

theorem blockAt_of_blockWith {place : Place} {child : Decode Item} {child' : Nat → Decode Item}
    (hagrees : ∀ n, Agrees (fun i j ↦ j = i.prune chosen (n :: place)) child (child' n))
    (hsafe : ∀ s, s.cursor.Within → IsSafe child s fun _ _ ↦ True)
    (hc : IsSteady child) (hc' : ∀ n, IsSteady (child' n)) {s t u : State} {b : Block}
    (hs : s.cursor.Within) (hst : t.cursor = s.cursor) (hok : blockWith child hc s = .ok b u) :
    ∃ v, blockAt false child' hc' t = .ok ⟨b.header, Item.pruneAll chosen place 0 b.items⟩ v ∧
      v.cursor = u.cursor := by
  have hword : 8 * ByteArray.empty.size % 32 = 0 := rfl
  obtain ⟨⟨h, start⟩, s₁, hheader, h₁⟩ := ok_of_bind hok
  obtain ⟨hs₁, hw, -⟩ := (safe_header hs).holds_of_ok hheader
  obtain ⟨⟨h', start'⟩, t₁, hheader', hr, ht₁⟩ :=
    agrees_of_moves (moves_header hword) hs hst hheader
  obtain ⟨hh, hstart⟩ : h' = h ∧ start' = ByteArray.empty.size + start := hr
  subst h' start'
  obtain ⟨all, s₂, hitems, h₂⟩ := ok_of_bind h₁
  have hs₂ := (safe_items hc hsafe hw [] s₁ hs₁).within_of_ok hitems
  obtain ⟨xs, t₂, rfl, hitems', ht₂⟩ :=
    itemsAt_of_items chosen hagrees hsafe hc hc' hw [] [] rfl s₁ hs₁ ht₁ hitems
  obtain ⟨_, s₃, hclose, h₃⟩ := ok_of_bind h₂
  obtain ⟨_, t₃, hclose', rfl, ht₃⟩ := agrees_of_moves (moves_close hword h start) hs₂ ht₂ hclose
  cases h₃
  refine ⟨t₃, (bind_of_ok hheader').trans (bind_of_ok ?_), ht₃⟩
  exact (bind_of_ok hitems').trans (bind_of_ok hclose')

theorem agrees_block (levels : Nat) (place : Place) :
    Agrees (fun b b' ↦ b' = b.prune chosen place) (block levels).val
      (skim chosen levels place).val := by
  induction levels generalizing place with
  | zero =>
    intro s t u b hs hst hok
    cases hok
  | succ levels ih =>
    intro s t u b hs hst hok
    have hchild (n : Nat) : Agrees (fun i j ↦ j = i.prune chosen (n :: place))
        (Block.toItem <$> (block levels).val)
        (Block.toItem <$> (skim chosen levels (n :: place)).val) :=
      (ih (n :: place)).map fun b b' hb ↦ by rw [hb, Block.toItem_prune]
    have hsafe (s : State) (hs : s.cursor.Within) :
        IsSafe (Block.toItem <$> (block levels).val) s fun _ _ ↦ True :=
      .map _ (safe_block levels s hs) fun _ _ _ ↦ trivial
    rw [skim_succ]
    cases hskipped : chosen place with
    | true =>
      obtain ⟨bits, hwritten, -, htake⟩ := blockSound_block (levels + 1) hs hok
      obtain ⟨v, hv, hat⟩ :=
        blockAt_of_isBlock (steady_skimmed chosen levels place) hwritten htake hst
      exact ⟨_, v, hv, (Block.prune_of_chosen hskipped b).symm, hat⟩
    | false =>
      obtain ⟨v, hv, hat⟩ := blockAt_of_blockWith chosen hchild hsafe _
        (steady_skimmed chosen levels place) hs hst hok
      exact ⟨_, v, hv, (Block.prune_of_not_chosen hskipped b).symm, hat⟩

theorem agrees_topLevel (n : Nat) :
    Agrees (fun b b' ↦ b' = b.prune chosen [n]) topLevel (topLevelAt chosen n) := by
  intro s t u b hs hst hok
  obtain ⟨id, s₁, hid, h₁⟩ := ok_of_bind hok
  have hs₁ := (safe_read (Read.safe_field (by decide) hs)).within_of_ok hid
  obtain ⟨_, t₁, hid', rfl, ht₁⟩ :=
    agrees_of_moves (moves_read (Read.shifts_field topLevelWidth)) hs hst hid
  obtain ⟨_, _, hr, h₂⟩ := ok_of_bind h₁
  obtain ⟨henter, rfl⟩ := ok_of_require hr
  obtain ⟨b', v, hb', hpruned, hv⟩ := agrees_block chosen maxDepth [n] hs₁ ht₁ h₂
  have hr' : require (id.toNat = enterSubblock) (.unexpectedTopLevelItem id) t₁ = .ok () t₁ := by
    rw [require, if_pos henter]
    rfl
  exact ⟨b', v, (bind_of_ok hid').trans ((bind_of_ok hr').trans hb'), hpruned, hv⟩

theorem blocksAt_of_blocks (seen seen' : List Block) (hseen : seen'.length = seen.length)
    (s : State) {t u : State} {all : List Block} (hs : s.cursor.Within) (hst : t.cursor = s.cursor)
    (hok : blocks seen s = .ok all u) :
    ∃ bs v, all = seen.reverse ++ bs ∧
      blocksAt chosen seen' t = .ok (seen'.reverse ++
        bs.mapIdx fun n ↦ Block.prune chosen [seen.length + n]) v ∧
      v.cursor = u.cursor := by
  fun_induction blocks seen s generalizing seen' t with
  | case1 seen s hend =>
    cases hok
    refine ⟨[], t, by simp, ?_, hst⟩
    rw [blocksAt, if_pos (by rw [hst, hend])]
    simp
  | case2 seen s hend e s₁ hb => cases hok
  | case3 seen s hend b s₁ hb _ ih =>
    have hs₁ := (safe_topLevel hs).within_of_ok hb
    obtain ⟨b', t₁, hb', hpruned, ht₁⟩ := agrees_topLevel chosen seen.length hs hst hb
    obtain ⟨bs, v, rfl, hrest, hv⟩ := ih (b' :: seen') (by simp [hseen]) hs₁ ht₁ hok
    refine ⟨b :: bs, v, by simp, ?_, hv⟩
    rw [← hseen] at hb'
    rw [blocksAt_of_topLevelAt (by simpa [hst] using hend) hb', hrest, hpruned]
    simp [List.mapIdx_cons, Nat.add_comm, Nat.add_left_comm]

end Nesting

section Nothing

theorem itemsAt_eq_items {child : Decode Item} {child' : Nat → Decode Item}
    (hchild : ∀ n, child' n = child) (hc : IsSteady child) (hc' : ∀ n, IsSteady (child' n))
    (h : Header) (seen : List Item) : itemsAt child' hc' h seen = items child hc h seen := by
  funext s
  fun_induction itemsAt child' hc' h seen s with
  | case1 seen s e t hm => rw [items_of_noMarker hm]
  | case2 seen s t hm => rw [items_of_end hm]
  | case3 seen s id t hm hid e u hi => rw [items_of_error hm hid (hchild _ ▸ hi)]
  | case4 seen s id t hm hid i u hi _ ih => rw [items_of_item hm hid (hchild _ ▸ hi), ih]

theorem skim_nothing (levels : Nat) (place : Place) :
    (skim (fun _ ↦ false) levels place).val = (block levels).val := by
  induction levels generalizing place with
  | zero => rfl
  | succ levels ih =>
    have hitems (h : Header) := itemsAt_eq_items (fun n ↦ by rw [ih (n :: place)])
      (steady_nested levels) (steady_skimmed (fun _ ↦ false) levels place) h []
    show blockAt false _ (steady_skimmed _ levels place) = blockWith _ (steady_nested levels)
    simp only [blockAt, blockWith, bodyAt, Bool.false_eq_true, if_false, hitems, bind_assoc,
      pure_bind]

theorem blocksAt_nothing (seen : List Block) : blocksAt (fun _ ↦ false) seen = blocks seen := by
  have htop (n : Nat) : topLevelAt (fun _ ↦ false) n = topLevel := by
    rw [topLevelAt, topLevel, skim_nothing]
  funext s
  fun_induction blocksAt (fun _ ↦ false) seen s with
  | case1 seen s hend => rw [blocks, if_pos hend]
  | case2 seen s hend e t hb => rw [blocks_of_error (by simpa using hend) (htop _ ▸ hb)]
  | case3 seen s hend b t hb _ ih =>
    rw [blocks_of_topLevel (by simpa using hend) (htop _ ▸ hb), ih]

/-- With no block chosen, reading is decoding, on all bytes. -/
theorem fst_skim_nothing (bytes : ByteArray) :
    Prod.fst <$> Stream.skim (fun _ ↦ false) bytes = Stream.decode bytes := by
  by_cases hmagic : hasMagic bytes = true
  · obtain ⟨body, rfl⟩ := hasMagic_iff.mp hmagic
    rw [Stream.skim, if_pos hmagic, slice_magic_append, decode_magic_append, blocksAt_nothing]
    dsimp only
    cases blocks [] { cursor := { bytes := body } } with
    | ok bs t => rfl
    | error e t => rfl
  · rw [Stream.skim, if_neg hmagic, decode_of_not_hasMagic hmagic]
    rfl

end Nothing

/-- However blocks are chosen at any depth, reading that jumps over their bodies ends with the
stream, and yields what decoding yields, without the items of the chosen blocks. -/
theorem skim_of_decode {bytes : ByteArray} {S : Stream} (h : Stream.decode bytes = .ok S)
    (chosen : Place → Bool) :
    Stream.skim chosen bytes = .ok (S.prune chosen, 8 * bytes.size) := by
  obtain ⟨-, body, rfl, -⟩ := isWritten_of_decode h
  rw [decode_magic_append] at h
  cases hrun : blocks [] { cursor := ⟨body, 0⟩ } with
  | error e t =>
    rw [hrun] at h
    cases h
  | ok bs t =>
    rw [hrun] at h
    cases h
    obtain ⟨xs, _, rfl, -, -, htake, hend⟩ := takes_of_blocks [] _ (Nat.zero_le _) hrun
    obtain ⟨_, v, hbs, hread, hat⟩ :=
      blocksAt_of_blocks chosen [] [] rfl _ (Nat.zero_le _) rfl hrun
    subst hbs
    have hend : v.cursor.pos = 8 * body.size := by
      rw [hat, hend, htake.end_eq]
      rfl
    rw [Stream.skim, if_pos (hasMagic_iff.mpr ⟨body, rfl⟩), slice_magic_append]
    dsimp only
    rw [hread]
    simp [Stream.prune, hend, Nat.mul_add]

theorem skim_of_decode_nested :
    Stream.skim (fun place ↦ place == [0, 0]) (magic ++ ⟨#[33, 12, 0, 0, 5, 0, 0, 0, 137, 32, 0, 0,
      2, 0, 0, 0, 34, 22, 8, 153, 32, 16, 0, 0, 59, 2, 54, 1]⟩) =
      .ok (⟨[⟨⟨8, 3, 5⟩, [.block ⟨17, 4, 2⟩ [], .record 7 [300]]⟩]⟩, 256) := by
  have hbits : allBits ⟨#[33, 12, 0, 0, 5, 0, 0, 0, 137, 32, 0, 0, 2, 0, 0, 0, 34, 22, 8, 153, 32,
      16, 0, 0, 59, 2, 54, 1]⟩ = ofItems topLevelWidth 0 [.block ⟨8, 3, 5⟩
        [.block ⟨17, 4, 2⟩ [.definition [.literal 5, .fixed 4], .record 1 [2]],
          .record 7 [300]]] := by
    decide +kernel
  refine skim_of_decode (S := ⟨[⟨⟨8, 3, 5⟩, [.block ⟨17, 4, 2⟩
    [.definition [.literal 5, .fixed 4], .record 1 [2]], .record 7 [300]]⟩]⟩)
    ((decode_of_ofItems ?_ hbits).trans (if_pos (by decide))) _
  have hinner : 2 = bodyWords 4 [.definition [.literal 5, .fixed 4], .record 1 [2]] := by
    decide +kernel
  have houter : 5 = bodyWords 3 [.block ⟨17, 4, 2⟩
      [.definition [.literal 5, .fixed 4], .record 1 [2]], .record 7 [300]] := by decide +kernel
  have hleaves : AllRegular [.definition [.literal 5, .fixed 4], .record 1 [2]] :=
    ⟨by simp [Regular], trivial, trivial⟩
  exact ⟨⟨by decide, by decide, houter, ⟨by decide, by decide, hinner, hleaves⟩, trivial, trivial⟩,
    trivial⟩

end Decode

end BlockStream
