import BlockStream.Contract
import BlockStream.Error
import BlockStream.Format
import BlockStream.Bits

namespace BlockStream

structure Buffer where
  bytes : ByteArray := .empty
  bitLen : Nat := 0

namespace Buffer

def ofBytes (bytes : ByteArray) : Buffer := ⟨bytes, 8 * bytes.size⟩

def setInLast (bytes : ByteArray) (mask : UInt8) : ByteArray :=
  if h : 0 < bytes.size then
    bytes.set (bytes.size - 1) (bytes[bytes.size - 1] ||| mask)
  else bytes

/-- Append as many low digits of a number as are taken, all into one byte. They are added to what
that byte holds already, so a bit that was set there beforehand stays set. -/
def pushPart (b : Buffer) (take value : Nat) : Buffer :=
  let offset := b.bitLen % 8
  let bytes := if offset = 0 then b.bytes.push 0 else b.bytes
  let part := (value &&& (1 <<< take - 1)).toUInt8
  ⟨setInLast bytes (part <<< offset.toUInt8), b.bitLen + take⟩

/-- Append the low digits of a number. Each round takes what the last byte has room for, or what is
left. -/
@[semireducible]
def pushParts (b : Buffer) (width value : Nat) : Buffer :=
  if 0 < width then
    let take := min width (8 - b.bitLen % 8)
    (b.pushPart take value).pushParts (width - take) (value >>> take)
  else b
termination_by width

def lowDigits (width value : Nat) : Nat :=
  if width < 64 then value &&& (1 <<< width - 1) else value

def pushDigits (b : Buffer) (width value : Nat) : Buffer :=
  b.pushParts width (lowDigits width value)

def push (b : Buffer) (f : Field) : Buffer := b.pushDigits f.width f.value

def pushAll (b : Buffer) (fs : List Field) : Buffer := fs.foldl push b

def pushBit (b : Buffer) (bit : Bool) : Buffer := b.push ⟨1, bit.toNat⟩

def pushByte (b : Buffer) (byte : UInt8) : Buffer := b.push ⟨8, byte.toNat⟩

def pushBytes (b : Buffer) (bytes : ByteArray) : Buffer :=
  if b.bitLen % 8 = 0 then ⟨b.bytes ++ bytes, b.bitLen + 8 * bytes.size⟩
  else bytes.data.foldl pushByte b

def align32 (b : Buffer) : Buffer := b.push ⟨(32 - b.bitLen % 32) % 32, 0⟩

def pushBlob (b : Buffer) (bytes : ByteArray) : Buffer :=
  ((b.pushAll (Vbr.fields Format.blobLengthChunk bytes.size)).align32.pushBytes bytes).align32

def isAligned32 (b : Buffer) : Bool := b.bitLen % 32 == 0

/-- The four bytes of a word, the low one first. -/
def wordBytes (word : UInt32) : ByteArray :=
  ⟨#[word.toUInt8, (word >>> 8).toUInt8, (word >>> 16).toUInt8, (word >>> 24).toUInt8]⟩

def overwrite (b : Buffer) (offset : Nat) (word : UInt32) : Buffer :=
  { b with bytes := (wordBytes word).copySlice 0 b.bytes offset 4 }

end Buffer

/-- An operation of a buffer that its contract, or a value, can stop. -/
abbrev Write := EStateM (Fault EncodeError) Buffer

namespace Write

def field (width : Nat) (value : UInt64) : Write Unit :=
  if width ≤ 64 then modify (·.push ⟨width, value.toNat⟩)
  else throw (.violation (.fieldWidth width))

def vbr (width : Nat) (value : UInt64) : Write Unit :=
  if 2 ≤ width ∧ width ≤ 64 then modify (·.pushAll (Vbr.fields width value.toNat))
  else throw (.violation (.chunkWidth width))

def signedVbr (width : Nat) (value : Int64) : Write Unit := vbr width (Vbr.fold value)

def char6 (c : Char) : Write Unit :=
  match Char6.encode? c with
  | some code => modify (·.push ⟨6, code.val⟩)
  | none => throw (.error (.invalidChar6 c))

def byteOffset : Write Nat := fun b ↦
  if b.bitLen % 8 = 0 then .ok (b.bitLen / 8) b
  else .error (.violation (.unalignedOffset b.bitLen)) b

def patch (offset : Nat) (word : UInt32) : Write Unit := fun b ↦
  if offset + 4 ≤ b.bytes.size then .ok () (b.overwrite offset word)
  else .error (.violation (.patchRange offset b.bytes.size)) b

end Write

end BlockStream
