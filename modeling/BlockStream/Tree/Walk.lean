import BlockStream.Tree

namespace BlockStream

inductive Visit
  | enter (header : Header)
  | record (code : UInt64) (operands : List UInt64)
  | definition (layout : Layout)
  /-- Tells how many records and blocks stood directly in the block. -/
  | leave (records blocks : Nat)

def Visit.leaving (items : List Item) : Visit :=
  .leave (items.countP Item.isRecord) (items.countP Item.isBlock)

mutual

def Item.walk (visits : Array Visit) : Item → Array Visit
  | .block header items =>
    (Item.walkAll (visits.push (.enter header)) items).push (.leaving items)
  | .record code operands => visits.push (.record code operands)
  | .definition layout => visits.push (.definition layout)
termination_by structural item => item

def Item.walkAll (visits : Array Visit) : List Item → Array Visit
  | [] => visits
  | item :: rest => Item.walkAll (item.walk visits) rest
termination_by structural items => items

end

def Stream.walk (s : Stream) : List Visit :=
  (Item.walkAll #[] (s.blocks.map Block.toItem)).toList

/-- A walk that has been followed so far: the finished top-level blocks, and the open blocks from
the innermost out, each with its items, the last first. -/
structure Walked where
  blocks : List Block := []
  openBlocks : List (Header × List Item) := []

namespace Walked

def add (w : Walked) (item : Item) : Option Walked :=
  match w.openBlocks with
  | [] => none
  | (header, items) :: outer => some { w with openBlocks := (header, item :: items) :: outer }

def follow (w : Walked) : Visit → Option Walked
  | .enter header => some { w with openBlocks := (header, []) :: w.openBlocks }
  | .record code operands => w.add (.record code operands)
  | .definition layout => w.add (.definition layout)
  | .leave _ _ =>
    match w.openBlocks with
    | [] => none
    | [(header, items)] => some ⟨⟨header, items.reverse⟩ :: w.blocks, []⟩
    | (header, items) :: outer =>
      { w with openBlocks := outer }.add (.block header items.reverse)

end Walked

/-- The stream that a walk goes through, if every block that it enters is left. -/
def Stream.ofWalk? (visits : List Visit) : Option Stream := do
  let walked ← visits.foldlM Walked.follow {}
  if walked.openBlocks.isEmpty then some ⟨walked.blocks.reverse⟩ else none

end BlockStream
