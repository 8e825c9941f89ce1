import BlockStream.Buffer

namespace BlockStream.Buffer

inductive Step
  | field (width : Nat) (value : UInt64)
  | bool (bit : Bool)
  | byte (byte : UInt8)
  | bytes (bytes : ByteArray)
  | vbr (width : Nat) (value : UInt64)
  | signedVbr (width : Nat) (value : Int64)
  | char6 (char : Char)
  | align32
  | blob (bytes : ByteArray)
  | patch (offset : Nat) (word : UInt32)
  | byteOffset
  | isAligned32
  | content

inductive Answer
  | done
  | number (n : Nat)
  | flag (holds : Bool)
  | bytes (bytes : ByteArray)

def Answer.ofUnit (_ : Unit) : Answer := .done

def Step.run : Step → Write Answer
  | .field width value => .ofUnit <$> Write.field width value
  | .bool x => .ofUnit <$> modify (·.pushBit x)
  | .byte x => .ofUnit <$> modify (·.pushByte x)
  | .bytes xs => .ofUnit <$> modify (·.pushBytes xs)
  | .vbr width value => .ofUnit <$> Write.vbr width value
  | .signedVbr width value => .ofUnit <$> Write.signedVbr width value
  | .char6 c => .ofUnit <$> Write.char6 c
  | .align32 => .ofUnit <$> modify (·.align32)
  | .blob xs => .ofUnit <$> modify (·.pushBlob xs)
  | .patch offset word => .ofUnit <$> Write.patch offset word
  | .byteOffset => .number <$> Write.byteOffset
  | .isAligned32 => do return .flag (← get).isAligned32
  | .content => do return .bytes (← get).bytes

/-- The results of steps taken one after the other, each on the buffer that the one before it left,
also after a failure. -/
def runAll (b : Buffer) : List Step → List (EStateM.Result (Fault EncodeError) Buffer Answer)
  | [] => []
  | step :: rest =>
    match step.run b with
    | .ok a c => .ok a c :: runAll c rest
    | .error e c => .error e c :: runAll c rest

end BlockStream.Buffer
