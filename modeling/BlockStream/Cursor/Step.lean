import BlockStream.Cursor

namespace BlockStream.Cursor

inductive Step
  | field (width : Nat)
  | vbr (width : Nat)
  | signedVbr (width : Nat)
  | bool
  | byte
  | char6
  | align32
  | blob
  | byteOffset

inductive Answer
  | done
  | word (value : UInt64)
  | signed (value : Int64)
  | flag (bit : Bool)
  | byte (value : UInt8)
  | char (c : Char)
  | bytes (bytes : ByteArray)
  | number (n : Nat)

def Step.run : Step → Read Answer
  | .field width => .word <$> Read.field width
  | .vbr width => .word <$> Read.vbr width
  | .signedVbr width => .signed <$> Read.signedVbr width
  | .bool => .flag <$> Read.bool
  | .byte => .byte <$> Read.byte
  | .char6 => .char <$> Read.char6
  | .align32 => (fun _ ↦ .done) <$> Read.align32
  | .blob => .bytes <$> Read.blob
  | .byteOffset => .number <$> Read.byteOffset

def runAll (c : Cursor) : List Step → List (EStateM.Result (Fault DecodeError) Cursor Answer)
  | [] => []
  | step :: rest =>
    match step.run c with
    | .ok a d => .ok a d :: runAll d rest
    | .error e d => .error e d :: runAll d rest

end BlockStream.Cursor
