import BlockStream.Contract
import BlockStream.Error
import BlockStream.Format
import BlockStream.Bits

namespace BlockStream

structure Cursor where
  bytes : ByteArray
  pos : Nat := 0

abbrev Read := EStateM (Fault DecodeError) Cursor

namespace Cursor

def bitLen (c : Cursor) : Nat := 8 * c.bytes.size

def atEnd (c : Cursor) : Bool := c.bitLen ≤ c.pos

def left (c : Cursor) : Nat := c.bitLen - c.pos

end Cursor

namespace Read

def fail {α : Type} (e : DecodeError) : Read α := throw (.error e)

def ensure (bits : Nat) : Read Unit := fun c ↦
  if c.pos + bits ≤ c.bitLen then .ok () c else .error (.error (.unexpectedEnd c.pos)) c

def advance (bits : Nat) : Read Unit := modify fun c ↦ { c with pos := c.pos + bits }

def skip (bits : Nat) : Read Unit := do
  ensure bits
  advance bits

def byteAt (i : Nat) : Read UInt8 := fun c ↦
  if h : i < c.bytes.size then .ok c.bytes[i] c
  else .error (.violation (.byteIndex i c.bytes.size)) c

def shiftUp (word : UInt64) (places : Nat) : Read UInt64 :=
  if places < 64 then return word <<< places.toUInt64
  else throw (.violation (.shiftAmount places))

def shiftDown (word : UInt64) (places : Nat) : Read UInt64 :=
  if places < 64 then return word >>> places.toUInt64
  else throw (.violation (.shiftAmount places))

/-- The bits of a field from the `done`th on, above those in `digits`. Each round takes what the
field still needs of one byte. -/
def digitsFrom (width done : Nat) (digits : UInt64) : Read UInt64 :=
  if done < width then do
    let pos := (← get).pos
    let byte ← byteAt (pos / 8)
    let take := min (width - done) (8 - pos % 8)
    let part := (← shiftDown byte.toUInt64 (pos % 8)) &&& ((← shiftUp 1 take) - 1)
    let digits := digits ||| (← shiftUp part done)
    advance take
    digitsFrom width (done + take) digits
  else return digits
termination_by width - done

def field (width : Nat) : Read UInt64 :=
  if width ≤ 64 then do
    ensure width
    digitsFrom width 0 0
  else throw (.violation (.fieldWidth width))

def bool : Read Bool := do return (← field 1) != 0

def byte : Read UInt8 := do return (← field 8).toUInt8

/-- What a payload loses if it is moved up by `shift` places: its digits past the 64th. -/
def lost (digits : UInt64) (shift : Nat) : Read UInt64 :=
  if shift = 0 then return 0 else shiftDown digits (64 - shift)

/-- The chunks of a number from payload digit `shift` on, which has `sum` below that digit. A set
digit past the 64th, or a chunk that begins there, does not fit. -/
def chunksFrom (payload start shift : Nat) (sum : UInt64) : Read UInt64 := do
  let chunk ← field (payload + 2)
  let flag ← shiftUp 1 (payload + 1)
  let digits := chunk &&& (flag - 1)
  if 64 ≤ shift then fail (.vbrOverflow start)
  else do
    if (← lost digits shift) ≠ 0 then fail (.vbrOverflow start)
    else do
      let sum := sum ||| (← shiftUp digits shift)
      if chunk &&& flag = 0 then return sum
      else chunksFrom payload start (shift + (payload + 1)) sum
termination_by 64 - shift

def vbr (width : Nat) : Read UInt64 := do
  match width with
  | payload + 2 =>
    if payload + 2 ≤ 64 then chunksFrom payload (← get).pos 0 0
    else throw (.violation (.chunkWidth width))
  | _ => throw (.violation (.chunkWidth width))

def signedVbr (width : Nat) : Read Int64 := do return Vbr.unfold (← vbr width)

def char6 : Read Char := do return Char6.ofByte (← field 6).toUInt8

def align32 : Read Unit := fun c ↦ skip ((32 - c.pos % 32) % 32) c

def byteOffset : Read Nat := fun c ↦
  if c.pos % 8 = 0 then .ok (c.pos / 8) c else .error (.violation (.unalignedOffset c.pos)) c

def between (start stop : Nat) : Read ByteArray := fun c ↦
  match slice c.bytes start stop with
  | .ok bytes => .ok bytes c
  | .error e => .error e c

def blob : Read ByteArray := do
  let size := (← vbr Format.blobLengthChunk).toNat
  align32
  let start ← byteOffset
  skip (8 * size)
  align32
  between start (start + size)

end Read

end BlockStream
