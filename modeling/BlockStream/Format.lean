namespace BlockStream

namespace Format

def magic : ByteArray := ⟨#[0x42, 0x43, 0xc0, 0xde]⟩

/-- Width of an abbreviation id outside all blocks. -/
def topLevelWidth : Nat := 2

def endBlock : Nat := 0
def enterSubblock : Nat := 1
def defineAbbrev : Nat := 2
def unabbrevRecord : Nat := 3
/-- The id of a block's first abbreviation; those below it are reserved. -/
def firstAbbrev : Nat := 4

def blockIdChunk : Nat := 8
def blockWidthChunk : Nat := 4

def recordChunk : Nat := 6

def operandCountChunk : Nat := 5
def literalChunk : Nat := 8
def encodingWidth : Nat := 3
def operandWidthChunk : Nat := 5

def blobLengthChunk : Nat := 6

def maxAbbrevWidth : Nat := 32

/-- How many blocks may be open at once. -/
def maxDepth : Nat := 256

def maxOperands : Nat := 8

end Format

namespace Char6

def alphabet : List Char :=
  "abcdefghijklmnopqrstuvwxyzABCDEFGHIJKLMNOPQRSTUVWXYZ0123456789._".toList

def encode? (c : Char) : Option (Fin 64) :=
  (alphabet.idxOf? c).map (Fin.ofNat 64)

def decode (code : Fin 64) : Char :=
  alphabet.getD code.val 'a'

def ofByte (byte : UInt8) : Char :=
  decode (Fin.ofNat 64 byte.toNat)

def covers (text : String) : Bool :=
  text.toList.all fun c ↦ (encode? c).isSome

end Char6

end BlockStream
