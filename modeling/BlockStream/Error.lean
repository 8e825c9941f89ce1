import BlockStream.BlockKind
import BlockStream.Text.Quoted

namespace BlockStream

inductive EncodeError
  | unknownBlock (id : UInt32)
  | invalidChar6 (char : Char)
  | emptyTypeTable
  | mismatchedEndBlock (innermost : Option BlockKind) (closing : BlockKind)
  | unclosedBlock (kind : BlockKind)
  | blockTooLarge (kind : BlockKind) (bytes : Nat)
  deriving DecidableEq, Repr

def EncodeError.showInnermost : Option BlockKind → String
  | none => "None"
  | some kind => s!"Some({kind.label})"

def EncodeError.message : EncodeError → String
  | unknownBlock id => s!"unrecognised block id {id.toNat}"
  | invalidChar6 char => s!"character {Text.quoted char} is not in the char6 alphabet"
  | emptyTypeTable => "type table is empty: type index width needs at least one type"
  | mismatchedEndBlock innermost closing =>
    s!"closing {closing.name} out of order (innermost open block: {showInnermost innermost})"
  | unclosedBlock kind => s!"{kind.name} is still open"
  | blockTooLarge kind bytes => s!"{kind.name} body is {bytes} bytes, too long for its length word"

/-- Positions count bits after the magic bytes. -/
inductive DecodeError
  | invalidMagic
  | unexpectedEnd (bit : Nat)
  | vbrOverflow (bit : Nat)
  | invalidBlockId (id : UInt64)
  | invalidAbbrevEncoding (tag : UInt64)
  | invalidAbbrevWidth (width : UInt64)
  | abbreviatedRecord (id : UInt64)
  | unexpectedTopLevelItem (id : UInt64)
  | nestingTooDeep (limit : Nat)
  | unterminatedBlock (id : UInt32)
  | lengthMismatch (id declared : UInt32) (actual : Nat)
  deriving DecidableEq, Repr

def DecodeError.message : DecodeError → String
  | invalidMagic => "invalid magic: expected 'BC' 0xC0DE"
  | unexpectedEnd bit => s!"unexpected end of stream at bit {bit}"
  | vbrOverflow bit => s!"vbr value at bit {bit} exceeds 64 bits"
  | invalidBlockId id => s!"block id {id.toNat} does not fit in 32 bits"
  | invalidAbbrevEncoding tag => s!"invalid abbreviation encoding tag {tag.toNat}"
  | invalidAbbrevWidth width => s!"invalid abbreviation id width {width.toNat}"
  | abbreviatedRecord id => s!"abbreviated record (abbreviation id {id.toNat}) cannot be decoded"
  | unexpectedTopLevelItem id => s!"unexpected abbreviation id {id.toNat} at top level"
  | nestingTooDeep limit => s!"blocks nested deeper than {limit} levels"
  | unterminatedBlock id => s!"block {id.toNat} is not terminated"
  | lengthMismatch id declared actual =>
    s!"block {id.toNat} declares {declared.toNat} words, body has {actual}"

end BlockStream
