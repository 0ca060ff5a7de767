import TuneBlocks.Decimal.Read
import TuneBlocks.Session

/-!
# Command lines

The commands and how they are written. A line that is not one of them is refused as a whole.
-/

namespace TuneBlocks

/-- How the `run` command runs a graph. -/
structure RunFlags where
  options : RunOptions
  breakpoints : List NodeId
  /-- Whether events are printed as JSON. -/
  json : Bool
deriving DecidableEq

def RunFlags.default : RunFlags := ⟨.default, [], false⟩

/-- A command on the graph stored at a path. -/
inductive Command where
  /-- Prints the listing. -/
  | compile (path : String)
  /-- Checks the program. -/
  | verify (path : String)
  /-- Runs the program and prints its events. -/
  | run (path : String) (flags : RunFlags)
deriving DecidableEq

def Command.path : Command → String
  | compile path | verify path | run path _ => path

namespace Arguments

/-- What the arguments of a command give: places without a name, flags, and options with their
values, each in order. -/
structure Given where
  places : List String
  flags : List String
  options : List (String × String)
deriving DecidableEq

namespace Given

def empty : Given := ⟨[], [], []⟩

def addPlace (g : Given) (s : String) : Given := { g with places := s :: g.places }

def addFlag (g : Given) (s : String) : Given := { g with flags := s :: g.flags }

def addOption (g : Given) (name value : String) : Given :=
  { g with options := (name, value) :: g.options }

/-- The values given to an option. -/
def values (g : Given) (name : String) : List String :=
  g.options.filterMap fun (n, v) => if n = name then some v else none

/-- Whether a flag is given; not more than once. -/
def flag? (g : Given) (name : String) : Option Bool :=
  match g.flags.filter (· == name) with
  | [] => some false
  | [_] => some true
  | _ => none

/-- The value of an option, or a default; not more than once, and one that can be read. -/
def option? (g : Given) (name : String) (read : String → Option α) (default : α) : Option α :=
  match g.values name with
  | [] => some default
  | [v] => read v
  | _ => none

/-- The only place, which is not the empty text. -/
def path? (g : Given) : Option String :=
  match g.places with
  | [path] => if path = "" then none else some path
  | _ => none

end Given

/-- What an argument looks like. -/
inductive Form where
  /-- `--`, behind which nothing is an option. -/
  | stop
  /-- `--name` or `--name=value`. -/
  | long (name : String) (value : Option String)
  /-- A dash and more. -/
  | short (letters : String)
  /-- Anything else, a single dash included. -/
  | plain (text : String)

def Form.of (s : String) : Form :=
  match s.toList with
  | ['-', '-'] => .stop
  | '-' :: '-' :: rest =>
    match rest.dropWhile (· != '=') with
    | [] => .long (String.ofList rest) none
    | _ :: value => .long (String.ofList (rest.takeWhile (· != '='))) (some (String.ofList value))
  | '-' :: c :: rest => .short (String.ofList (c :: rest))
  | _ => .plain s

/-- Sorts arguments by what they look like. Known are the flags, the options that take a value, and
`-v` for the flag `verbose`. -/
def scan (flags options : List String) : List String → Option Given
  | [] => some .empty
  | s :: rest =>
    match Form.of s with
    | .stop => some ⟨rest, [], []⟩
    | .plain text => (scan flags options rest).map (·.addPlace text)
    | .short letters =>
      if letters = "v" then (scan flags options rest).map (·.addFlag "verbose") else none
    | .long name none =>
      if name ∈ flags then (scan flags options rest).map (·.addFlag name)
      else if name ∈ options then
        match rest with
        | [] => none
        | value :: rest =>
          match Form.of value with
          | .plain value => (scan flags options rest).map (·.addOption name value)
          | _ => none
      else none
    | .long name (some value) =>
      if name ∈ options then (scan flags options rest).map (·.addOption name value) else none

/-- A whole number below `2 ^ 64`, an optional plus sign before it. -/
def readWord? (s : String) : Option Nat :=
  let digits := match s.toList with
    | '+' :: rest => rest
    | cs => cs
  if digits.isEmpty || !digits.all Char.isDigit then none
  else (some (Numeral.digitsValue 0 digits)).filter (· < Nat.pow 2 64)

/-- The path of a command that takes nothing else. -/
def readPath? (args : List String) : Option String := do
  let given ← scan ["verbose"] [] args
  let _ ← given.flag? "verbose"
  given.path?

def readRun? (args : List String) : Option Command := do
  let given ← scan ["verbose", "json"] ["dt", "max-pulses", "slice", "break"] args
  let _ ← given.flag? "verbose"
  let json ← given.flag? "json"
  let pulse ← given.option? "dt" (fun s => Numeral.read? s.toList) RunOptions.default.pulse
  let maxPulses ← given.option? "max-pulses" readWord? RunOptions.default.maxPulses
  let budget ← given.option? "slice" (fun s => (readWord? s).filter (0 < ·))
    RunOptions.default.budget
  let path ← given.path?
  return .run path ⟨⟨pulse, maxPulses, budget⟩, given.values "break", json⟩

/-- Reads the name of a command and its arguments. -/
def readCommand? : List String → Option Command
  | "compile" :: args => (readPath? args).map .compile
  | "verify" :: args => (readPath? args).map .verify
  | "run" :: args => readRun? args
  | _ => none

/-- Reads a command line; before the command only the flag `verbose` may stand, once. -/
def read? : List String → Option Command
  | "-v" :: args | "--verbose" :: args => readCommand? args
  | args => readCommand? args

end Arguments

end TuneBlocks
