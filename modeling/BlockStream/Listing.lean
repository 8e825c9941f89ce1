import BlockStream.Registry

namespace BlockStream

inductive Role
  | block | record | definition | detail
  deriving DecidableEq, Repr

/-- The escape sequence that starts each role, and the one that ends them all. -/
structure Palette where
  block : String
  record : String
  definition : String
  detail : String
  reset : String
  deriving DecidableEq, Repr

namespace Palette

def colored : Palette where
  block := "\x1b[34m"
  record := "\x1b[32m"
  definition := "\x1b[35m"
  detail := "\x1b[2m"
  reset := "\x1b[0m"

def plain : Palette := ⟨"", "", "", "", ""⟩

def ofBool (colors : Bool) : Palette := if colors then colored else plain

def isEnabled (p : Palette) : Bool := p.reset ≠ ""

def start (p : Palette) : Role → String
  | .block => p.block
  | .record => p.record
  | .definition => p.definition
  | .detail => p.detail

end Palette

structure Span where
  role : Option Role := none
  text : String
  deriving DecidableEq, Repr

def Span.render (p : Palette) (s : Span) : String :=
  match s.role with
  | none => s.text
  | some role => p.start role ++ s.text ++ p.reset

structure Line where
  depth : Nat
  spans : List Span
  deriving DecidableEq, Repr

def Line.render (p : Palette) (l : Line) : String :=
  String.ofList (List.replicate (2 * l.depth) ' ') ++
    (l.spans.foldl (fun text s ↦ text ++ s.render p) "" ++ "\n")

namespace Listing

def commaSeparated (texts : List String) : String :=
  "[" ++ ", ".intercalate texts ++ "]"

def numbers (values : List UInt64) : String :=
  commaSeparated (values.map fun v ↦ toString v.toNat)

def headerLine (depth : Nat) (h : Header) : Line :=
  ⟨depth, [⟨some .block, blockName h.id⟩, ⟨none, " "⟩,
    ⟨some .detail,
      s!"<id {h.id.toNat}, width {h.abbrevWidth.toNat}, len {h.lengthWords.toNat}>"⟩]⟩

def definitionLine (depth number : Nat) (layout : Layout) : Line :=
  ⟨depth, [⟨some .definition, s!"abbrev #{number}"⟩,
    ⟨none, " " ++ commaSeparated (layout.map Operand.text)⟩]⟩

def targetText (id : UInt64) : String :=
  if id.toNat < UInt32.size then blockName id.toUInt32 else toString id.toNat

/-- What a BLOCKINFO block calls a record code. -/
def infoCode? (code : UInt64) : Option BlockInfoCode :=
  if code.toNat < UInt32.size then BlockInfoCode.ofCode? code.toUInt32 else none

def recordLine (inInfo : Bool) (depth : Nat) (code : UInt64) (operands : List UInt64) : Line :=
  match (if inInfo then infoCode? code else none), operands with
  | some .setBid, [id] =>
    ⟨depth, [⟨some .record, BlockInfoCode.setBid.name⟩, ⟨none, " " ++ targetText id⟩]⟩
  | some info, operands =>
    ⟨depth, [⟨some .record, info.name⟩, ⟨none, " " ++ numbers operands⟩]⟩
  | none, operands =>
    ⟨depth, [⟨some .record, s!"record {code.toNat}"⟩, ⟨none, " " ++ numbers operands⟩]⟩

def firstNumber (registry : Registry) (id : UInt32) : Nat :=
  Format.firstAbbrev + (registry.layouts id).size

/-- The number of the next definition behind an item. In an ordinary block they go on from those
that are registered for its id, in a BLOCKINFO block they are counted from each record that sets a
target. -/
def nextNumber (inInfo : Bool) (number : Nat) : Item → Nat
  | .definition _ => number + 1
  | it => if inInfo && it.setsTarget then Format.firstAbbrev else number

mutual

/-- Add the lines of an item to those before it. -/
def item (registry : Registry) (inInfo : Bool) (depth number : Nat) (lines : Array Line) :
    Item → Array Line
  | .block h content =>
    items registry (h.id == BlockKind.blockInfo.id) (depth + 1) (firstNumber registry h.id)
      (lines.push (headerLine depth h)) content
  | .record code operands => lines.push (recordLine inInfo depth code operands)
  | .definition layout => lines.push (definitionLine depth number layout)
termination_by structural it => it

def items (registry : Registry) (inInfo : Bool) (depth number : Nat) (lines : Array Line) :
    List Item → Array Line
  | [] => lines
  | it :: rest =>
    items registry inInfo depth (nextNumber inInfo number it)
      (item registry inInfo depth number lines it) rest
termination_by structural its => its

end

end Listing

def Stream.lines (s : Stream) : List Line :=
  (Listing.items s.registry false 0 Format.firstAbbrev #[] (s.blocks.map Block.toItem)).toList

def Stream.listing (p : Palette) (s : Stream) : String :=
  s.lines.foldl (fun text l ↦ text ++ l.render p) ""

end BlockStream
