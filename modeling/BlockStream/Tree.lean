import BlockStream.Abbreviation
import BlockStream.Bits
import BlockStream.BlockKind

namespace BlockStream

structure Header where
  id : UInt32
  abbrevWidth : UInt32
  /-- Length of the body in words of 32 bits, as declared. -/
  lengthWords : UInt32
  deriving DecidableEq, Repr

inductive Item
  | block (header : Header) (items : List Item)
  | record (code : UInt64) (operands : List UInt64)
  | definition (layout : Layout)

structure Block where
  header : Header
  items : List Item

structure Stream where
  blocks : List Block

namespace Item

def isRecord : Item → Bool
  | record .. => true
  | _ => false

def isBlock : Item → Bool
  | block .. => true
  | _ => false

end Item

def Block.toItem (b : Block) : Item := .block b.header b.items

namespace Wire

/-- The id of a new block and the abbreviation width inside it; padding and the length word
follow. -/
def enter (width : Nat) (id blockWidth : UInt32) : List Field :=
  ⟨width, Format.enterSubblock⟩ ::
    (Vbr.fields Format.blockIdChunk id.toNat ++
      Vbr.fields Format.blockWidthChunk blockWidth.toNat)

def exit (width : Nat) : List Field := [⟨width, Format.endBlock⟩]

/-- A literal is its value behind a set bit; any other operand is the tag of its encoding behind a
clear bit, and its width if it has one. -/
def operand (op : Operand) : List Field :=
  match op with
  | .literal value => ⟨1, 1⟩ :: Vbr.fields Format.literalChunk value.toNat
  | _ =>
    ⟨1, 0⟩ :: (op.encoding?.toList.map fun e ↦ ⟨Format.encodingWidth, e.tag⟩) ++
      op.width?.toList.flatMap fun w ↦ Vbr.fields Format.operandWidthChunk w.toNat

def definition (width : Nat) (layout : Layout) : List Field :=
  ⟨width, Format.defineAbbrev⟩ ::
    (Vbr.fields Format.operandCountChunk layout.length ++ layout.flatMap operand)

def record (width : Nat) (code : UInt64) (operands : List UInt64) : List Field :=
  ⟨width, Format.unabbrevRecord⟩ ::
    (Vbr.fields Format.recordChunk code.toNat ++
      Vbr.fields Format.recordChunk operands.length ++
      operands.flatMap fun v ↦ Vbr.fields Format.recordChunk v.toNat)

end Wire

end BlockStream
