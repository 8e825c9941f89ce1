import Std.Data.TreeMap
import BlockStream.BlockKind
import BlockStream.Tree

namespace BlockStream

namespace Item

/-- Whether the item is a record that sets the target of the definitions after it. -/
def setsTarget : Item → Bool
  | record code _ => code == BlockInfoCode.setBid.code.toUInt64
  | _ => false

def target? : Item → Option UInt32
  | record _ (id :: _) => if id.toNat < UInt32.size then some id.toUInt32 else none
  | _ => none

end Item

namespace Registry

/-- The registrations made by the items of a BLOCKINFO block, where `target` has been set. -/
def ofItems (target : Option UInt32) : List Item → List (UInt32 × Layout)
  | [] => []
  | .definition layout :: rest =>
    (target.toList.map fun id ↦ (id, layout)) ++ ofItems target rest
  | item :: rest => ofItems (if item.setsTarget then item.target? else target) rest

def ofBlock (b : Block) : List (UInt32 × Layout) :=
  if b.header.id = BlockKind.blockInfo.id then ofItems none b.items else []

end Registry

def Stream.registrations (s : Stream) : List (UInt32 × Layout) :=
  s.blocks.flatMap Registry.ofBlock

/-- The abbreviations registered for each block id. -/
abbrev Registry := Std.TreeMap UInt32 (Array Layout)

namespace Registry

def insert (r : Registry) : UInt32 × Layout → Registry
  | (id, layout) => r.alter id fun known ↦ some ((known.getD #[]).push layout)

def layouts (r : Registry) (id : UInt32) : Array Layout := r.getD id #[]

end Registry

def Stream.registry (s : Stream) : Registry := s.registrations.foldl Registry.insert ∅

end BlockStream
