import BlockStream.Abbreviation
import BlockStream.BlockKind

namespace BlockStream

inductive SymtabAbbrev
  | entry8 | entry7 | entry6 | bbEntry6
  deriving DecidableEq, Repr

inductive ConstantsAbbrev
  | setType | integer | evalCast | null
  deriving DecidableEq, Repr

inductive FunctionAbbrev
  | load | binOp | binOpFlags | cast | retVoid | retValue | unreachable | gep
  deriving DecidableEq, Repr

namespace SymtabAbbrev

def all : List SymtabAbbrev := [entry8, entry7, entry6, bbEntry6]

def name : SymtabAbbrev → String
  | entry8 => "entry8"
  | entry7 => "entry7"
  | entry6 => "entry6"
  | bbEntry6 => "bbentry6"

def layout : SymtabAbbrev → Layout
  | entry8 => [.fixed 3, .vbr 8, .array, .fixed 8]
  | entry7 => [.literal 1, .vbr 8, .array, .fixed 7]
  | entry6 => [.literal 1, .vbr 8, .array, .char6]
  | bbEntry6 => [.literal 2, .vbr 8, .array, .char6]

end SymtabAbbrev

namespace ConstantsAbbrev

def all : List ConstantsAbbrev := [setType, integer, evalCast, null]

def name : ConstantsAbbrev → String
  | setType => "settype"
  | integer => "integer"
  | evalCast => "eval_cast"
  | null => "null"

def layout : ConstantsAbbrev → Layout
  | setType => [.literal 1, .typeIndex]
  | integer => [.literal 4, .vbr 8]
  | evalCast => [.literal 11, .fixed 4, .typeIndex, .vbr 8]
  | null => [.literal 2]

end ConstantsAbbrev

namespace FunctionAbbrev

def all : List FunctionAbbrev :=
  [load, binOp, binOpFlags, cast, retVoid, retValue, unreachable, gep]

def name : FunctionAbbrev → String
  | load => "load"
  | binOp => "binop"
  | binOpFlags => "binop_flags"
  | cast => "cast"
  | retVoid => "ret_void"
  | retValue => "ret_value"
  | unreachable => "unreachable"
  | gep => "gep"

def layout : FunctionAbbrev → Layout
  | load => [.literal 20, .vbr 6, .typeIndex, .vbr 4, .fixed 1]
  | binOp => [.literal 2, .vbr 6, .vbr 6, .fixed 4]
  | binOpFlags => [.literal 2, .vbr 6, .vbr 6, .fixed 4, .fixed 7]
  | cast => [.literal 3, .vbr 6, .typeIndex, .fixed 4]
  | retVoid => [.literal 10]
  | retValue => [.literal 10, .vbr 6]
  | unreachable => [.literal 15]
  | gep => [.literal 43, .fixed 1, .typeIndex, .array, .vbr 6]

end FunctionAbbrev

inductive StandardAbbrev
  | valueSymtab (a : SymtabAbbrev)
  | constants (a : ConstantsAbbrev)
  | function (a : FunctionAbbrev)
  deriving DecidableEq, Repr

/-- The standard abbreviations of a block kind, in the order a reader numbers them. -/
def BlockKind.abbrevs : BlockKind → List StandardAbbrev
  | .valueSymtab => SymtabAbbrev.all.map .valueSymtab
  | .constants => ConstantsAbbrev.all.map .constants
  | .function => FunctionAbbrev.all.map .function
  | _ => []

namespace StandardAbbrev

def kind : StandardAbbrev → BlockKind
  | valueSymtab _ => .valueSymtab
  | constants _ => .constants
  | function _ => .function

def name : StandardAbbrev → String
  | valueSymtab a => a.name
  | constants a => a.name
  | function a => a.name

def layout : StandardAbbrev → Layout
  | valueSymtab a => a.layout
  | constants a => a.layout
  | function a => a.layout

def id (a : StandardAbbrev) : Nat :=
  Format.firstAbbrev + a.kind.abbrevs.idxOf a

def label : StandardAbbrev → String
  | valueSymtab .entry8 => "ValueSymtab.Entry8"
  | valueSymtab .entry7 => "ValueSymtab.Entry7"
  | valueSymtab .entry6 => "ValueSymtab.Entry6"
  | valueSymtab .bbEntry6 => "ValueSymtab.BbEntry6"
  | constants .setType => "Constants.SetType"
  | constants .integer => "Constants.Integer"
  | constants .evalCast => "Constants.EvalCast"
  | constants .null => "Constants.Null"
  | function .load => "Function.Load"
  | function .binOp => "Function.BinOp"
  | function .binOpFlags => "Function.BinOpFlags"
  | function .cast => "Function.Cast"
  | function .retVoid => "Function.RetVoid"
  | function .retValue => "Function.RetValue"
  | function .unreachable => "Function.Unreachable"
  | function .gep => "Function.Gep"

def ofLabel? (label : String) : Option StandardAbbrev :=
  (BlockKind.registered.flatMap BlockKind.abbrevs).find? (·.label == label)

end StandardAbbrev

end BlockStream
