import BlockStream.Console.Program

namespace BlockStream.Console

def FileError.ofSystem (e : IO.Error) : FileError :=
  match e with
  | .noFileOrDirectory .. => .noSuchFile
  | .inappropriateType _ code _ =>
    if code = 20 then .notDirectory else if code = 21 then .isDirectory else .other (toString e)
  | .invalidArgument _ 36 _ => .nameTooLong
  | e => .other (toString e)

def systemFiles : FileAccess IO where
  read path := do
    try return .ok (← IO.FS.readBinFile path)
    catch e => return .error (.ofSystem e)
  write path bytes := do
    try
      IO.FS.writeBinFile path bytes
      return .ok ()
    catch e => return .error (.ofSystem e)

def usageText : String :=
  "Inspect and generate DXIL bitcode streams\n\n" ++
  "Usage: dxil-bc [-v]... dump FILE [--color WHEN]\n" ++
  "       dxil-bc [-v]... blockinfo --num-types N [-o FILE] [--color WHEN]\n" ++
  "       dxil-bc help [COMMAND]\n"

def UsageError.text : UsageError → String
  | displayHelp | displayHelpOnMissing => ""
  | missingSubcommand => "error: a command is required\n\n"
  | invalidSubcommand => "error: unrecognised command\n\n"
  | unknownArgument => "error: unexpected argument\n\n"
  | missingRequiredArgument => "error: a required argument is missing\n\n"
  | invalidValue => "error: invalid or missing value\n\n"
  | valueValidation => "error: value out of range\n\n"
  | argumentConflict => "error: an option is given twice\n\n"
  | tooManyValues => "error: a flag takes no value\n\n"

end BlockStream.Console

open BlockStream.Console in
def main (words : List String) : IO UInt32 := do
  let stdout ← IO.getStdout
  let stderr ← IO.getStderr
  match ← run systemFiles (← stdout.isTty) words with
  | .error .displayHelp =>
    stdout.putStr usageText
    return 0
  | .error e =>
    stderr.putStr (e.text ++ usageText)
    return 2
  | .ok e =>
    stderr.putStr e.stderr
    stdout.putStr e.stdout
    return e.status
