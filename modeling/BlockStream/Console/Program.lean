import BlockStream.Console.Arguments
import BlockStream.Console.Files
import BlockStream.Decode.Stream
import BlockStream.Listing
import BlockStream.Session

namespace BlockStream.Console

inductive CommandError
  | read (path : String) (cause : FileError)
  | write (path : String) (cause : FileError)
  | decode (path : String) (cause : DecodeError)
  | encode (cause : EncodeError)
  | outputFull
  | violation (broken : Violation)
  deriving DecidableEq, Repr

namespace CommandError

def message : CommandError → String
  | read path cause => s!"cannot read {path}: {cause.message}"
  | write path cause => s!"cannot write {path}: {cause.message}"
  | decode path cause => s!"{path}: {cause.message}"
  | encode cause => cause.message
  | outputFull => "failed to write whole buffer"
  | violation broken => broken.message

def ofDecode (path : String) : Fault DecodeError → CommandError
  | .error e => decode path e
  | .violation v => violation v

def ofEncode : Fault EncodeError → CommandError
  | .error e => encode e
  | .violation v => violation v

end CommandError

/-- What a command has done: its events, the text it printed, and how it ended. -/
structure Work where
  log : Array Event := #[]
  stdout : String := ""
  result : Except CommandError Unit := .ok ()

namespace Work

def failed (log : Array Event) (e : CommandError) : Work := { log, result := .error e }

/-- Print a text to an output that takes so many characters, or any number. A listing has ASCII
characters alone, so these are bytes too. -/
def print (log : Array Event) (capacity : Option Nat) (text : String) : Work :=
  match capacity with
  | none => { log, stdout := text }
  | some n =>
    if text.length ≤ n then { log, stdout := text }
    else { log, stdout := String.ofList (text.toList.take n), result := .error .outputFull }

def list (log : Array Event) (path : String) (bytes : ByteArray) (palette : Palette)
    (capacity : Option Nat) : Work :=
  match Decode.run bytes with
  | (.ok stream, opened) => print (log ++ opened) capacity (stream.listing palette)
  | (.error e, opened) => failed (log ++ opened) (.ofDecode path e)

def blockInfoPath : String := "<blockinfo>"

/-- A stream with the BLOCKINFO block for so many types, and the events of writing it. -/
def blockInfoStream (types : UInt32) : Except CommandError ByteArray × Array Event :=
  match Emit.blockInfo types (Session.start .empty) with
  | .ok _ s => (s.finish.mapError .encode, s.log)
  | .error e s => (.error (.ofEncode e), s.log)

variable {m : Type → Type} [Monad m]

def dump (files : FileAccess m) (path : String) (palette : Palette) (capacity : Option Nat) :
    m Work := do
  match ← files.read path with
  | .error e => return failed #[] (.read path e)
  | .ok bytes => return list #[.fileRead bytes.size path] path bytes palette capacity

def blockInfo (files : FileAccess m) (types : UInt32) (output : Option String)
    (palette : Palette) (capacity : Option Nat) : m Work := do
  match blockInfoStream types, output with
  | (.error e, log), _ => return failed log e
  | (.ok bytes, log), none => return list log blockInfoPath bytes palette capacity
  | (.ok bytes, log), some path =>
    match ← files.write path bytes with
    | .error e => return failed log (.write path e)
    | .ok () => return { log := log.push (.fileWritten bytes.size path) }

end Work

/-- Do a command; `terminal` says whether the output is one. -/
def Command.execute {m : Type → Type} [Monad m] (files : FileAccess m) (terminal : Bool)
    (capacity : Option Nat) : Command → m Work
  | .dump input color => Work.dump files input (.ofBool (color.colors terminal)) capacity
  | .blockInfo types output color =>
    Work.blockInfo files types output (.ofBool (color.colors terminal)) capacity

structure Exit where
  status : UInt32
  stdout : String
  stderr : String

def Work.exit (verbosity : Nat) (w : Work) : Exit :=
  let level := Level.ofVerbosity verbosity
  let events := w.log.foldl (fun text e ↦
    if e.visible level then text ++ (e.line ++ "\n") else text) ""
  match w.result with
  | .ok () => ⟨0, w.stdout, events⟩
  | .error e => ⟨1, w.stdout, events ++ ("error: " ++ e.message ++ "\n")⟩

/-- The program by whatever reads its words and gives access to files. -/
def runWith {m : Type → Type} [Monad m] (read : List String → Except UsageError Invocation)
    (files : FileAccess m) (terminal : Bool) (words : List String) :
    m (Except UsageError Exit) := do
  match read words with
  | .error e => return .error e
  | .ok i => return .ok ((← i.command.execute files terminal none).exit i.verbosity)

def run {m : Type → Type} [Monad m] (files : FileAccess m) (terminal : Bool)
    (words : List String) : m (Except UsageError Exit) :=
  runWith parse files terminal words

end BlockStream.Console
