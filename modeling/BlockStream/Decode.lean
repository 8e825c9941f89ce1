import BlockStream.Cursor
import BlockStream.Log
import BlockStream.Tree

namespace BlockStream

namespace Decode

structure State where
  cursor : Cursor
  log : Array Event := #[]

end Decode

abbrev Decode := EStateM (Fault DecodeError) Decode.State

namespace Decode

open Format

def fail {α : Type} (e : DecodeError) : Decode α := throw (.error e)

def require (p : Prop) [Decidable p] (e : DecodeError) : Decode Unit :=
  if p then pure () else fail e

def read {α : Type} (x : Read α) : Decode α := fun s ↦
  match x s.cursor with
  | .ok a c => .ok a { s with cursor := c }
  | .error e c => .error e { s with cursor := c }

/-- A reading for which the stream having ended is the error `e`. -/
def readOr {α : Type} (e : DecodeError) (x : Read α) : Decode α := fun s ↦
  match x s.cursor with
  | .ok a c => .ok a { s with cursor := c }
  | .error (.error _) c => .error (.error e) { s with cursor := c }
  | .error (.violation v) c => .error (.violation v) { s with cursor := c }

def note (e : Event) : Decode Unit := modify fun s ↦ { s with log := s.log.push e }

/-- A block header behind its marker, and the byte at which the body starts. -/
def header : Decode (Header × Nat) := do
  let id ← read (Read.vbr blockIdChunk)
  require (id.toNat < UInt32.size) (.invalidBlockId id)
  let width ← read (Read.vbr blockWidthChunk)
  require (0 < width.toNat ∧ width.toNat ≤ maxAbbrevWidth) (.invalidAbbrevWidth width)
  read Read.align32
  let words ← read (Read.field 32)
  let bodyStart ← read Read.byteOffset
  note (.opened id.toUInt32 bodyStart words.toUInt32)
  return (⟨id.toUInt32, width.toUInt32, words.toUInt32⟩, bodyStart)

/-- The padding behind an end marker; the body must then be as long as its header says. -/
def close (h : Header) (bodyStart : Nat) : Decode Unit := do
  readOr (.unterminatedBlock h.id) Read.align32
  let actual := (← difference (← read Read.byteOffset) bodyStart) / 4
  require (actual = h.lengthWords.toNat) (.lengthMismatch h.id h.lengthWords actual)

def operandWidth : Decode UInt32 := do
  let width ← read (Read.vbr operandWidthChunk)
  require (width.toNat < UInt32.size) (.invalidAbbrevWidth width)
  return width.toUInt32

def encoded : Decode Operand := do
  let tag ← read (Read.field encodingWidth)
  match Encoding.ofTag? tag with
  | none => fail (.invalidAbbrevEncoding tag)
  | some .fixed => Operand.fixed <$> operandWidth
  | some .vbr => Operand.vbr <$> operandWidth
  | some .array => return .array
  | some .char6 => return .char6
  | some .blob => return .blob

def operand : Decode Operand := do
  if ← read Read.bool then Operand.literal <$> read (Read.vbr literalChunk) else encoded

/-- So many values, read one after the other behind those in `seen`, which are in reverse. -/
def repeated {α : Type} (x : Decode α) : (count : Nat) → (seen : List α) → Decode (List α)
  | 0, seen => return seen.reverse
  | count + 1, seen => do repeated x count ((← x) :: seen)

def definition : Decode Item := do
  let count ← read (Read.vbr operandCountChunk)
  return .definition (← repeated operand count.toNat [])

def record : Decode Item := do
  let code ← read (Read.vbr recordChunk)
  let count ← read (Read.vbr recordChunk)
  return .record code (← repeated (read (Read.vbr recordChunk)) count.toNat [])

/-- The abbreviation id in front of an item or of the end. A body that stops here has no end. -/
def marker (h : Header) : Decode UInt64 := do
  require ((← get).cursor.atEnd = false) (.unterminatedBlock h.id)
  readOr (.unterminatedBlock h.id) (Read.field h.abbrevWidth.toNat)

def item (child : Decode Item) (id : UInt64) : Decode Item :=
  if id.toNat = enterSubblock then child
  else if id.toNat = defineAbbrev then definition
  else if id.toNat = unabbrevRecord then record
  else fail (.abbreviatedRecord id)

end Decode

end BlockStream
