import BlockStream.Decode.Steady

namespace BlockStream

namespace Decode

open Format

/-- The items up to the end marker, behind those in `seen`, which are in reverse. -/
def items (child : Decode Item) (hc : IsSteady child) (h : Header) (seen : List Item) :
    Decode (List Item) := fun s ↦
  match hm : marker h s with
  | .error e t => .error e t
  | .ok id t =>
    if hid : id = 0 then .ok seen.reverse t
    else
      match hi : item child id t with
      | .error e u => .error e u
      | .ok i u =>
        have : u.cursor.left < s.cursor.left := left_lt_of_item hc hm hid hi
        items child hc h (i :: seen) u
termination_by s => s.cursor.left

theorem steady_items {child : Decode Item} (hc : IsSteady child) (h : Header)
    (seen : List Item) : IsSteady (items child hc h seen) := by
  intro s
  fun_induction items child hc h seen s with
  | case1 seen s e t hm => exact (steady_marker h).of_eq hm
  | case2 seen s t hm => exact (steady_marker h).of_eq hm
  | case3 seen s id t hm hid e u hi =>
    exact ((steady_marker h).of_eq hm).trans ((steady_item hc id).of_eq hi)
  | case4 seen s id t hm hid i u hi _ ih =>
    exact (((steady_marker h).of_eq hm).trans ((steady_item hc id).of_eq hi)).trans ih

section Rounds

variable {child : Decode Item} {hc : IsSteady child} {h : Header} {seen : List Item}
  {s t u : State}

theorem items_of_noMarker {e : Fault DecodeError} (hm : marker h s = .error e t) :
    items child hc h seen s = .error e t := by
  rw [items]
  split
  · rename_i he
    cases hm.symm.trans he
    rfl
  · rename_i hok
    cases hm.symm.trans hok

theorem items_of_end (hm : marker h s = .ok 0 t) :
    items child hc h seen s = .ok seen.reverse t := by
  rw [items]
  split
  · rename_i e _ he
    cases hm.symm.trans he
  · rename_i id _ hid
    cases hm.symm.trans hid
    rfl

theorem items_of_item {id : UInt64} {i : Item} (hm : marker h s = .ok id t) (hid : id ≠ 0)
    (hi : item child id t = .ok i u) :
    items child hc h seen s = items child hc h (i :: seen) u := by
  rw [items]
  split
  · rename_i e _ he
    cases hm.symm.trans he
  · rename_i hok
    cases hm.symm.trans hok
    rw [dif_neg hid]
    split
    · rename_i he
      cases hi.symm.trans he
    · rename_i hok
      cases hi.symm.trans hok
      rfl

theorem items_of_error {id : UInt64} {e : Fault DecodeError} (hm : marker h s = .ok id t)
    (hid : id ≠ 0) (hi : item child id t = .error e u) :
    items child hc h seen s = .error e u := by
  rw [items]
  split
  · rename_i e _ he
    cases hm.symm.trans he
  · rename_i hok
    cases hm.symm.trans hok
    rw [dif_neg hid]
    split
    · rename_i he
      cases hi.symm.trans he
      rfl
    · rename_i hok
      cases hi.symm.trans hok

end Rounds

def blockWith (child : Decode Item) (hc : IsSteady child) : Decode Block := do
  let (h, bodyStart) ← header
  let items ← items child hc h []
  close h bodyStart
  return ⟨h, items⟩

theorem steady_blockWith {child : Decode Item} (hc : IsSteady child) :
    IsSteady (blockWith child hc) :=
  .bind steady_header fun _ ↦ .bind (steady_items hc _ _) fun _ ↦
    .bind (steady_close _ _) fun _ ↦ .pure _

/-- A block, where at most so many levels of blocks may be opened from here on. -/
def block : Nat → { x : Decode Block // IsSteady x }
  | 0 => ⟨fail (.nestingTooDeep maxDepth), .throw _⟩
  | levels + 1 =>
    let child := block levels
    ⟨blockWith (Block.toItem <$> child.val) (.map _ child.property), steady_blockWith _⟩

def topLevel : Decode Block := do
  let id ← read (Read.field topLevelWidth)
  require (id.toNat = enterSubblock) (.unexpectedTopLevelItem id)
  (block maxDepth).val

theorem left_lt_of_topLevel {s t : State} {b : Block} (h : topLevel s = .ok b t) :
    t.cursor.left < s.cursor.left := left_lt_of_marked (block maxDepth).property h

/-- The top-level blocks up to the end of the bytes, behind those in `seen`. -/
def blocks (seen : List Block) : Decode (List Block) := fun s ↦
  if s.cursor.atEnd then .ok seen.reverse s
  else
    match h : topLevel s with
    | .error e t => .error e t
    | .ok b t =>
      have : t.cursor.left < s.cursor.left := left_lt_of_topLevel h
      blocks (b :: seen) t
termination_by s => s.cursor.left

theorem blocks_of_topLevel {seen : List Block} {s t : State} {b : Block}
    (hend : s.cursor.atEnd = false) (h : topLevel s = .ok b t) :
    blocks seen s = blocks (b :: seen) t := by
  rw [blocks, if_neg (by simp [hend])]
  split
  · rename_i he
    cases h.symm.trans he
  · rename_i hok
    cases h.symm.trans hok
    rfl

theorem blocks_of_error {seen : List Block} {s t : State} {e : Fault DecodeError}
    (hend : s.cursor.atEnd = false) (h : topLevel s = .error e t) :
    blocks seen s = .error e t := by
  rw [blocks, if_neg (by simp [hend])]
  split
  · rename_i he
    cases h.symm.trans he
    rfl
  · rename_i hok
    cases h.symm.trans hok

def hasMagic (bytes : ByteArray) : Bool := bytes.extract 0 magic.size == magic

/-- Decode a whole stream, and tell the blocks that were opened on the way. -/
def run (bytes : ByteArray) : Except (Fault DecodeError) Stream × Array Event :=
  if hasMagic bytes then
    match slice bytes magic.size bytes.size with
    | .error e => (.error e, #[])
    | .ok body =>
      match blocks [] { cursor := { bytes := body } } with
      | .ok bs s => (.ok ⟨bs⟩, s.log)
      | .error e s => (.error e, s.log)
  else (.error (.error .invalidMagic), #[])

end Decode

def Stream.decode (bytes : ByteArray) : Except (Fault DecodeError) Stream := (Decode.run bytes).1

end BlockStream
