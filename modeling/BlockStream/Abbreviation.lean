import BlockStream.Format

namespace BlockStream

/-- How the value of an operand is stored, with the tag that says so in a stream. -/
inductive Encoding
  | fixed | vbr | array | char6 | blob
  deriving DecidableEq, Repr

namespace Encoding

def all : List Encoding := [fixed, vbr, array, char6, blob]

def tag : Encoding → Nat
  | fixed => 1
  | vbr => 2
  | array => 3
  | char6 => 4
  | blob => 5

def ofTag? (tag : UInt64) : Option Encoding :=
  all.find? (·.tag == tag.toNat)

def hasData : Encoding → Bool
  | fixed | vbr => true
  | array | char6 | blob => false

def name : Encoding → String
  | fixed => "Fixed"
  | vbr => "Vbr"
  | array => "Array"
  | char6 => "Char6"
  | blob => "Blob"

end Encoding

/-- Bits for an index into a table of so many types: those of the count without its leading zeros.
A power of two gets one bit more than its indices need. -/
def typeIndexWidth (types : UInt32) : UInt32 := 32 - .ofBitVec types.toBitVec.clz

inductive Operand
  | literal (value : UInt64)
  | fixed (width : UInt32)
  | vbr (width : UInt32)
  | array
  | char6
  | blob
  | typeIndex
  deriving DecidableEq, Repr

namespace Operand

/-- A type index becomes a fixed field wide enough for the type table. -/
def resolve (types : UInt32) : Operand → Operand
  | typeIndex => fixed (typeIndexWidth types)
  | operand => operand

def encoding? : Operand → Option Encoding
  | literal _ => none
  | fixed _ | typeIndex => some .fixed
  | vbr _ => some .vbr
  | array => some .array
  | char6 => some .char6
  | blob => some .blob

def width? : Operand → Option UInt32
  | fixed width | vbr width => some width
  | _ => none

def isLiteral : Operand → Bool
  | literal _ => true
  | _ => false

/-- Whether the operand can describe the elements of an array. -/
def isScalar : Operand → Bool
  | fixed _ | vbr _ | char6 | typeIndex => true
  | literal _ | array | blob => false

def text : Operand → String
  | literal value => s!"lit({value.toNat})"
  | fixed width => s!"fixed({width.toNat})"
  | vbr width => s!"vbr({width.toNat})"
  | array => "array"
  | char6 => "char6"
  | blob => "blob"
  | typeIndex => "fixed(type)"

end Operand

abbrev Layout := List Operand

namespace Layout

def resolve (types : UInt32) (layout : Layout) : Layout := layout.map (·.resolve types)

/-- An array is followed by its element and nothing else, a blob by nothing. -/
def endsWell : Layout → Bool
  | [] => true
  | .array :: rest =>
    match rest with
    | [element] => element.isScalar
    | _ => false
  | .blob :: rest => rest.isEmpty
  | _ :: rest => endsWell rest

def isWellFormed (layout : Layout) : Bool :=
  !layout.isEmpty && layout.length ≤ Format.maxOperands && endsWell layout

end Layout

end BlockStream
