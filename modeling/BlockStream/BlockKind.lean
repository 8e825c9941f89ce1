namespace BlockStream

inductive BlockKind
  | blockInfo | module | paramAttr | paramAttrGroup | constants | function | valueSymtab
  | metadata | metadataAttachment | type | useList
  deriving DecidableEq, Repr

namespace BlockKind

def id : BlockKind → UInt32
  | blockInfo => 0
  | module => 8
  | paramAttr => 9
  | paramAttrGroup => 10
  | constants => 11
  | function => 12
  | valueSymtab => 14
  | metadata => 15
  | metadataAttachment => 16
  | type => 17
  | useList => 18

def all : List BlockKind :=
  [blockInfo, module, paramAttr, paramAttrGroup, constants, function, valueSymtab, metadata,
    metadataAttachment, type, useList]

def ofId? (id : UInt32) : Option BlockKind :=
  all.find? (·.id == id)

def abbrevWidth : BlockKind → UInt32
  | blockInfo => 2
  | module | paramAttr | paramAttrGroup | metadata | metadataAttachment | useList => 3
  | constants | function | valueSymtab | type => 4

def name : BlockKind → String
  | blockInfo => "BLOCKINFO"
  | module => "MODULE_BLOCK"
  | paramAttr => "PARAMATTR_BLOCK"
  | paramAttrGroup => "PARAMATTR_GROUP_BLOCK"
  | constants => "CONSTANTS_BLOCK"
  | function => "FUNCTION_BLOCK"
  | valueSymtab => "VALUE_SYMTAB_BLOCK"
  | metadata => "METADATA_BLOCK"
  | metadataAttachment => "METADATA_ATTACHMENT"
  | type => "TYPE_BLOCK"
  | useList => "USELIST_BLOCK"

def label : BlockKind → String
  | blockInfo => "BlockInfo"
  | module => "Module"
  | paramAttr => "ParamAttr"
  | paramAttrGroup => "ParamAttrGroup"
  | constants => "Constants"
  | function => "Function"
  | valueSymtab => "ValueSymtab"
  | metadata => "Metadata"
  | metadataAttachment => "MetadataAttachment"
  | type => "Type"
  | useList => "UseList"

/-- The kinds whose abbreviations the BLOCKINFO block declares, in the order it declares them. -/
def registered : List BlockKind := [valueSymtab, constants, function]

def hasAbbrevs (kind : BlockKind) : Bool := registered.contains kind

theorem ofId?_id (kind : BlockKind) : ofId? kind.id = some kind := by
  cases kind <;> rfl

theorem id_of_ofId? {id : UInt32} {kind : BlockKind} (h : ofId? id = some kind) : kind.id = id := by
  simpa using List.find?_some h

theorem two_le_abbrevWidth (kind : BlockKind) : 2 ≤ kind.abbrevWidth.toNat := by
  cases kind <;> decide

end BlockKind

def blockName (id : UInt32) : String :=
  match BlockKind.ofId? id with
  | some kind => kind.name
  | none => s!"BLOCK{id.toNat}"

inductive BlockInfoCode
  | setBid | blockName | setRecordName
  deriving DecidableEq, Repr

namespace BlockInfoCode

def all : List BlockInfoCode := [setBid, blockName, setRecordName]

def code : BlockInfoCode → UInt32
  | setBid => 1
  | blockName => 2
  | setRecordName => 3

def ofCode? (code : UInt32) : Option BlockInfoCode :=
  all.find? (·.code == code)

def name : BlockInfoCode → String
  | setBid => "SETBID"
  | blockName => "BLOCKNAME"
  | setRecordName => "SETRECORDNAME"

end BlockInfoCode

end BlockStream
