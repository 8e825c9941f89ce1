namespace BlockStream.Console

inductive ColorChoice
  | auto | always | never
  deriving DecidableEq, Repr

namespace ColorChoice

def ofText? : String → Option ColorChoice
  | "auto" => some auto
  | "always" => some always
  | "never" => some never
  | _ => none

def colors (terminal : Bool) : ColorChoice → Bool
  | auto => terminal
  | always => true
  | never => false

end ColorChoice

inductive Command
  | dump (input : String) (color : ColorChoice)
  | blockInfo (types : UInt32) (output : Option String) (color : ColorChoice)
  deriving DecidableEq, Repr

structure Invocation where
  verbosity : Nat
  command : Command
  deriving DecidableEq, Repr

inductive UsageError
  | displayHelp
  | displayHelpOnMissing
  | missingSubcommand
  | invalidSubcommand
  | unknownArgument
  | missingRequiredArgument
  | invalidValue
  | valueValidation
  | argumentConflict
  | tooManyValues
  deriving DecidableEq, Repr

inductive Verb
  | dump | blockInfo
  deriving DecidableEq, Repr

def Verb.ofName? : String → Option Verb
  | "dump" => some dump
  | "blockinfo" => some blockInfo
  | _ => none

/-- What takes a value: the input, which has no name, and three options. -/
inductive Slot
  | input | color | types | output
  deriving DecidableEq, Repr

inductive Named
  | verbose
  | help
  | slot (s : Slot)

/-- The long names that are known behind a verb, or before any. -/
def long? (verb : Option Verb) (name : String) : Option Named :=
  match name, verb with
  | "verbose", _ => some .verbose
  | "help", _ => some .help
  | "color", some _ => some (.slot .color)
  | "num-types", some .blockInfo => some (.slot .types)
  | "output", some .blockInfo => some (.slot .output)
  | _, _ => none

def short? (verb : Option Verb) (name : Char) : Option Named :=
  match name, verb with
  | 'v', _ => some .verbose
  | 'h', _ => some .help
  | 'o', some .blockInfo => some (.slot .output)
  | _, _ => none

def digits? (cs : List Char) : Option Nat :=
  if cs.isEmpty then none
  else cs.foldlM (fun n c ↦ if c.isDigit then some (10 * n + (c.toNat - '0'.toNat)) else none) 0

/-- A count of types: decimal digits behind an optional sign, with a value of at most 32 bits. -/
def count? (text : String) : Option UInt32 :=
  let value? := match text.toList with
    | '+' :: cs => digits? cs
    | '-' :: cs => (digits? cs).filter (· = 0)
    | cs => digits? cs
  (value?.filter (· < UInt32.size)).map Nat.toUInt32

structure Given where
  verbosity : Nat := 0
  input : Option String := none
  color : Option ColorChoice := none
  types : Option UInt32 := none
  output : Option String := none

def maxVerbosity : Nat := 255

namespace Given

def has (g : Given) : Slot → Bool
  | .input => g.input.isSome
  | .color => g.color.isSome
  | .types => g.types.isSome
  | .output => g.output.isSome

def set (g : Given) (slot : Slot) (text : String) : Except UsageError Given :=
  match slot with
  | .input => if text = "" then .error .invalidValue else .ok { g with input := some text }
  | .output => if text = "" then .error .invalidValue else .ok { g with output := some text }
  | .color =>
    match ColorChoice.ofText? text with
    | some c => .ok { g with color := some c }
    | none => .error .invalidValue
  | .types =>
    match count? text with
    | some n => .ok { g with types := some n }
    | none => .error .valueValidation

/-- Take the value of an option, which must be there, and there once only. -/
def take (g : Given) (slot : Slot) : Option String → Except UsageError Given
  | none => .error .invalidValue
  | some text => if g.has slot then .error .argumentConflict else g.set slot text

end Given

structure Reading where
  given : Given := {}
  /-- An option or input that has not been looked at yet, and its value if that has come. -/
  pending : Option (Slot × Option String) := none
  dashed : Bool := false

namespace Reading

def settle (r : Reading) : Except UsageError Reading :=
  match r.pending with
  | none => .ok r
  | some (slot, text) => do return { r with given := ← r.given.take slot text, pending := none }

def verbose (r : Reading) : Except UsageError Reading := do
  let r ← r.settle
  return { r with given.verbosity := min (r.given.verbosity + 1) maxVerbosity }

def help (r : Reading) : Except UsageError Reading := do
  let _ ← r.settle
  throw .displayHelp

def slot (r : Reading) (slot : Slot) : Option String → Except UsageError Reading
  | some text => do
    let r ← r.settle
    return { r with given := ← r.given.take slot (some text) }
  | none => do
    let r ← r.settle
    return { r with pending := some (slot, none) }

def long (verb : Option Verb) (r : Reading) (name : String) (value : Option String) :
    Except UsageError Reading :=
  match long? verb name, value with
  | none, _ => .error .unknownArgument
  | some (.slot s), value => r.slot s value
  | some _, some _ => .error .tooManyValues
  | some .verbose, none => r.verbose
  | some .help, none => r.help

/-- Short options in one word. The first that takes a value takes the rest of the word. -/
def shorts (verb : Option Verb) (r : Reading) : List Char → Except UsageError Reading
  | [] => .ok r
  | c :: rest =>
    match short? verb c with
    | none => .error .unknownArgument
    | some .verbose => do shorts verb (← r.verbose) rest
    | some .help => r.help
    | some (.slot s) =>
      match rest with
      | [] => r.slot s none
      | '=' :: value => r.slot s (some (String.ofList value))
      | value => r.slot s (some (String.ofList value))

def positional (verb : Option Verb) (r : Reading) (text : String) : Except UsageError Reading :=
  match verb with
  | some .dump =>
    if r.given.has .input || r.pending.any (·.1 = .input) then .error .unknownArgument
    else do return { ← r.settle with pending := some (.input, some text) }
  | some .blockInfo => .error .unknownArgument
  | none =>
    if r.dashed && ((Verb.ofName? text).isSome || text = "help") then .error .unknownArgument
    else .error .invalidSubcommand

def word (verb : Option Verb) (r : Reading) (text : String) : Except UsageError Reading :=
  if r.dashed then r.positional verb text
  else
    match text.toList with
    | ['-', '-'] => .ok { r with dashed := true }
    | '-' :: '-' :: cs =>
      let name := cs.takeWhile (· ≠ '=')
      let value := match cs.dropWhile (· ≠ '=') with
        | [] => none
        | _ :: value => some (String.ofList value)
      r.long verb (String.ofList name) value
    | '-' :: c :: cs => r.shorts verb (c :: cs)
    | _ =>
      match r.pending with
      | some (slot, none) => .ok { r with pending := some (slot, some text) }
      | _ => r.positional verb text

end Reading

def helpOn : List String → UsageError
  | [] => .displayHelp
  | [name] =>
    if (Verb.ofName? name).isSome || name = "help" then .displayHelp else .invalidSubcommand
  | _ => .invalidSubcommand

/-- The words behind a verb; `before` is what was asked for in front of it. -/
def Verb.parse (verb : Verb) (before : Nat) (words : List String) :
    Except UsageError Invocation := do
  let g := (← (← words.foldlM (Reading.word (some verb)) {}).settle).given
  let color := g.color.getD .auto
  let verbosity := if g.verbosity = 0 then before else g.verbosity
  match verb with
  | .dump =>
    match g.input with
    | some input => return ⟨verbosity, .dump input color⟩
    | none => throw .missingRequiredArgument
  | .blockInfo =>
    match g.types with
    | some types => return ⟨verbosity, .blockInfo types g.output color⟩
    | none => throw .missingRequiredArgument

def parseFrom (r : Reading) : List String → Except UsageError Invocation
  | [] => .error (if r.given.verbosity = 0 then .displayHelpOnMissing else .missingSubcommand)
  | text :: rest =>
    match (if r.dashed then none else Verb.ofName? text) with
    | some verb => verb.parse r.given.verbosity rest
    | none =>
      if text = "help" && !r.dashed then .error (helpOn rest)
      else do parseFrom (← r.word none text) rest

def parse (words : List String) : Except UsageError Invocation := parseFrom {} words

end BlockStream.Console
