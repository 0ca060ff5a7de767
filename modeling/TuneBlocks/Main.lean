import TuneBlocks.Command.Perform

/-!
# The command line
-/

namespace TuneBlocks.Command

def usage : String :=
  "usage: [-v] compile GRAPH | verify GRAPH | run GRAPH [--dt MS] [--max-pulses N] " ++
    "[--slice N] [--break NODE]... [--json]"

/-- Why the system refuses to read a file. It gives its error numbers with either sign. -/
def readError (e : IO.Error) : ReadError :=
  let number (code : UInt32) : Nat := min code.toNat (0 - code).toNat
  match e with
  | .noFileOrDirectory .. => .notFound
  | .permissionDenied _ code _ => if number code = 13 then .denied else .other (toString e)
  | .inappropriateType _ code _ =>
    if number code = 20 then .notFolder
    else if number code = 21 then .isFolder
    else .other (toString e)
  | .invalidArgument _ code _ => if number code = 36 then .nameTooLong else .other (toString e)
  | e => .other (toString e)

/-- Reads a file as text. -/
def readContents (path : String) : IO (Except ReadError String) := do
  try
    return Files.textOf (← IO.FS.readBinFile path)
  catch e =>
    return .error (readError e)

end TuneBlocks.Command

open TuneBlocks in
def main (args : List String) : IO UInt32 := do
  match Arguments.read? args with
  | none =>
    IO.eprintln Command.usage
    return 2
  | some command =>
    let outcome := command.perform (← Command.readContents command.path)
    IO.print outcome.console.out
    IO.eprint outcome.console.err
    return outcome.code.toUInt32
