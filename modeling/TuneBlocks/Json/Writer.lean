import TuneBlocks.Decimal.Format
import TuneBlocks.Json.Basic

/-!
# Writing JSON

The compact form: no blanks, fields in the order given, and only those characters escaped that a
JSON string cannot hold as they are.
-/

namespace TuneBlocks.Json

/-- A character inside a JSON string. -/
def escape (c : Char) : List Char :=
  if c = '"' then ['\\', '"']
  else if c = '\\' then ['\\', '\\']
  else if c = '\x08' then ['\\', 'b']
  else if c = '\x0c' then ['\\', 'f']
  else if c = '\n' then ['\\', 'n']
  else if c = '\r' then ['\\', 'r']
  else if c = '\t' then ['\\', 't']
  else if c < ' ' then
    ['\\', 'u', '0', '0', Nat.digitChar (c.toNat / 16), Nat.digitChar (c.toNat % 16)]
  else [c]

def writeText (s : String) : List Char :=
  '"' :: (s.toList.flatMap escape ++ ['"'])

mutual

def write : Json → List Char
  | null => "null".toList
  | bool b => (if b then "true" else "false").toList
  | whole n => (toString n).toList
  | real x => (NumberFormat.json.render x).toList
  | text s => writeText s
  | array items => '[' :: (writeItems items ++ [']'])
  | object fields => '\x7b' :: (writeFields fields ++ ['\x7d'])

/-- The items of an array, separated by commas. -/
def writeItems : List Json → List Char
  | [] => []
  | [j] => write j
  | j :: rest => write j ++ ',' :: writeItems rest

/-- The fields of an object, separated by commas. -/
def writeFields : List (String × Json) → List Char
  | [] => []
  | [(k, j)] => writeText k ++ ':' :: write j
  | (k, j) :: rest => writeText k ++ ':' :: (write j ++ ',' :: writeFields rest)

end

/-- The compact text of a value. -/
def render (j : Json) : String := String.ofList j.write

end TuneBlocks.Json
