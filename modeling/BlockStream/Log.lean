import BlockStream.BlockKind

namespace BlockStream

inductive Level
  | error | warn | info | debug | trace
  deriving DecidableEq, Repr

namespace Level

def rank : Level → Nat
  | error => 1
  | warn => 2
  | info => 3
  | debug => 4
  | trace => 5

def name : Level → String
  | error => "ERROR"
  | warn => "WARN"
  | info => "INFO"
  | debug => "DEBUG"
  | trace => "TRACE"

/-- The least severe level shown: warnings at first, one more for each time more is asked for. -/
def ofVerbosity : Nat → Level
  | 0 => warn
  | 1 => info
  | 2 => debug
  | _ => trace

end Level

inductive Event
  | unknownBlock (id : UInt32)
  | registering (types : UInt32)
  | entered (kind : BlockKind) (offset : Nat)
  | exited (kind : BlockKind) (words : UInt32)
  | opened (id : UInt32) (bodyStart : Nat) (words : UInt32)
  | fileRead (size : Nat) (path : String)
  | fileWritten (size : Nat) (path : String)
  deriving DecidableEq, Repr

namespace Event

def level : Event → Level
  | unknownBlock _ => .error
  | registering _ => .debug
  | entered .. | exited .. | opened .. => .trace
  | fileRead .. | fileWritten .. => .info

def target : Event → String
  | unknownBlock _ | registering _ | entered .. | exited .. => "dxil_bitcode::writer"
  | opened .. => "dxil_bitcode::stream"
  | fileRead .. => "dxil_bc::commands::dump"
  | fileWritten .. => "dxil_bc::commands::blockinfo"

def message : Event → String
  | unknownBlock id => s!"encoding error: unrecognised block {id.toNat}"
  | registering types => s!"emitting BLOCKINFO for {types.toNat} types"
  | entered kind offset =>
    s!"enter {kind.name} at byte {offset}, abbrev width {kind.abbrevWidth.toNat}"
  | exited kind words => s!"exit {kind.name} with {words.toNat} words"
  | opened id bodyStart words =>
    s!"block {id.toNat} at byte {bodyStart}, {words.toNat} words"
  | fileRead size path => s!"read {size} bytes from {path}"
  | fileWritten size path => s!"wrote {size} bytes to {path}"

def line (e : Event) : String :=
  s!"[{e.level.name} {e.target}] {e.message}"

def visible (least : Level) (e : Event) : Bool :=
  e.level.rank ≤ least.rank

end Event

end BlockStream
