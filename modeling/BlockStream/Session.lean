import BlockStream.Abbreviation.Standard
import BlockStream.BlockKind
import BlockStream.Buffer.Step
import BlockStream.Log
import BlockStream.Tree

namespace BlockStream

/-- A block that has been opened and not yet closed. -/
structure Frame where
  kind : BlockKind
  lengthOffset : Nat
  deriving DecidableEq, Repr

/-- What closes a block: the block's frame, and how many blocks were open with it. -/
structure Scope where
  frame : Frame
  depth : Nat
  deriving DecidableEq, Repr

/-- A session: the buffer, the open blocks from the innermost out, and what has been reported. -/
structure Session where
  out : Buffer
  frames : List Frame := []
  log : Array Event := #[]

abbrev Emit := EStateM (Fault EncodeError) Session

namespace Session

def start (existing : ByteArray) : Session :=
  { out := (Buffer.ofBytes existing).pushBytes Format.magic }

def innermost (s : Session) : Option BlockKind := s.frames.head?.map (·.kind)

/-- Width of the next abbreviation id. -/
def width (s : Session) : Nat :=
  match s.innermost with
  | some kind => kind.abbrevWidth.toNat
  | none => Format.topLevelWidth

def depth (s : Session) : Nat := s.frames.length

def finish (s : Session) : Except EncodeError ByteArray :=
  match s.innermost with
  | some kind => .error (.unclosedBlock kind)
  | none => .ok s.out.align32.bytes

end Session

namespace Emit

def fail {α : Type} (e : EncodeError) : Emit α := throw (.error e)

def require (p : Prop) [Decidable p] (e : EncodeError) : Emit Unit :=
  if p then pure () else fail e

def note (e : Event) : Emit Unit := modify fun s ↦ { s with log := s.log.push e }

def write (f : Buffer → Buffer) : Emit Unit := modify fun s ↦ { s with out := f s.out }

/-- Write fields that depend on the current abbreviation width. -/
def emit (fields : Nat → List Field) : Emit Unit :=
  modify fun s ↦
    let width := s.width
    { s with out := s.out.pushAll (fields width) }

def onBuffer {α : Type} (x : Write α) : Emit α := fun ⟨out, frames, log⟩ ↦
  match x out with
  | .ok a out => .ok a ⟨out, frames, log⟩
  | .error e out => .error e ⟨out, frames, log⟩

/-- Open a block. An id of no known kind is refused before anything is written. -/
def beginBlock (id : UInt32) : Emit Scope := do
  match BlockKind.ofId? id with
  | none =>
    note (.unknownBlock id)
    fail (.unknownBlock id)
  | some kind =>
    emit fun width ↦ Wire.enter width id kind.abbrevWidth
    write Buffer.align32
    let lengthOffset ← onBuffer Write.byteOffset
    write fun b ↦ b.push ⟨32, 0⟩
    let frame := ⟨kind, lengthOffset⟩
    modify fun s ↦ { s with frames := frame :: s.frames }
    note (.entered kind lengthOffset)
    return { frame, depth := (← get).depth }

/-- Close the innermost block with its own scope; any other scope is refused and changes nothing.
The length word takes the words from behind itself to the end of the padding. -/
def endBlock (scope : Scope) : Emit Unit := do
  let ⟨kind, lengthOffset⟩ := scope.frame
  let s ← get
  require (s.frames.head? = some scope.frame ∧ scope.depth = s.depth)
    (.mismatchedEndBlock s.innermost kind)
  emit Wire.exit
  write Buffer.align32
  let bytes ← difference (← onBuffer Write.byteOffset) (lengthOffset + 4)
  require (bytes / 4 < UInt32.size) (.blockTooLarge kind bytes)
  let words := (bytes / 4).toUInt32
  onBuffer (Write.patch lengthOffset words)
  modify fun s ↦ { s with frames := s.frames.tail }
  note (.exited kind words)

/-- Run a body inside a block. Where the body fails the block stays open. -/
def block (id : UInt32) (body : Emit Unit) : Emit Unit := do
  let scope ← beginBlock id
  body
  endBlock scope

def record (code : UInt32) (operands : List UInt64) : Emit Unit :=
  emit fun width ↦ Wire.record width code.toUInt64 operands

def define (layout : Layout) (types : UInt32) : Emit Unit := do
  require (types ≠ 0) .emptyTypeTable
  emit fun width ↦ Wire.definition width (layout.resolve types)

/-- Write the BLOCKINFO block: for each registered kind a record that names it, then its standard
abbreviations. -/
def blockInfo (types : UInt32) : Emit Unit := do
  require (types ≠ 0) .emptyTypeTable
  note (.registering types)
  block BlockKind.blockInfo.id do
    BlockKind.registered.forM fun kind ↦ do
      record BlockInfoCode.setBid.code [kind.id.toUInt64]
      kind.abbrevs.forM fun a ↦ define a.layout types

end Emit

end BlockStream
