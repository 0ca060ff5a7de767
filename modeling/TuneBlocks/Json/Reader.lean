import TuneBlocks.Decimal.Read
import TuneBlocks.Json.Basic

/-!
# Reading JSON

`Json.readFirst` reads one strict JSON value off the front of a text and leaves the rest. A number
is read from its first digits, as many as a 64-bit word holds, scaled by a power of ten; with a
result beyond the doubles the text is refused, as it is beyond `depthLimit` nested arrays and
objects.
-/

namespace TuneBlocks.Json

/-- The deepest nesting of arrays and objects that is read. -/
def depthLimit : Nat := 127

def isBlank (c : Char) : Bool := c = ' ' || c = '\n' || c = '\t' || c = '\r'

def skipBlanks (s : List Char) : List Char := s.dropWhile isBlank

/-! ## Numbers -/

/-- The first number that does not fit into a 64-bit word. -/
def wordLimit : Nat := Nat.pow 2 64

/-- Appends digits to a significand while it fits into a word; also counts the digits left over. -/
def appendWhole (significand : Nat) : List Char → Nat × Nat
  | [] => (significand, 0)
  | c :: rest =>
    let next := Numeral.digitsValue significand [c]
    if next < wordLimit then appendWhole next rest else (significand, rest.length + 1)

/-- Appends digits to a significand while it fits into a word; also counts the digits taken. -/
def appendFraction (significand : Nat) : List Char → Nat × Nat
  | [] => (significand, 0)
  | c :: rest =>
    let next := Numeral.digitsValue significand [c]
    if next < wordLimit then
      let (s, taken) := appendFraction next rest
      (s, taken + 1)
    else (significand, 0)

/-- Ten to the power `n`, as the nearest double. -/
def powerOfTen (n : Nat) : Float := Float.ofScientific 1 false n

/-- Divides by a power of ten, by `10 ^ 308` at a time until the number is zero. -/
def scaleDown (x : Float) (n : Nat) : Float :=
  if n ≤ 308 then x / powerOfTen n
  else if x == 0 then x
  else scaleDown (x / powerOfTen 308) (n - 308)
termination_by n
decreasing_by omega

/-- `x * 10 ^ e`, unless it is beyond the doubles. -/
def scale (x : Float) (e : Int) : Option Float :=
  if e < 0 then some (scaleDown x (-e).toNat)
  else if x == 0 then some x
  else if e ≤ 308 then (some (x * powerOfTen e.toNat)).filter Float.isFinite
  else none

/-- An optional exponent at the front of a text: its value, and the rest. -/
def readExponent : List Char → Option (Option Int × List Char)
  | [] => some (none, [])
  | c :: rest =>
    if c = 'e' || c = 'E' then
      let (negative, rest) := Numeral.splitSign rest
      match Numeral.splitDigits rest with
      | ([], _) => none
      | (ds, rest) =>
        let n : Int := Numeral.digitsValue 0 ds
        some (some (if negative then -n else n), rest)
    else some (none, c :: rest)

/-- An optional fraction at the front of a text: its digits, and the rest. -/
def readFraction : List Char → Option (List Char × List Char)
  | '.' :: rest =>
    match Numeral.splitDigits rest with
    | ([], _) => none
    | (ds, rest) => some (ds, rest)
  | s => some ([], s)

/-- The number with the given sign, digits and exponent. Without fraction and exponent it is whole
if it fits into 64 bits. -/
def number (negative : Bool) (digits fraction : List Char) (exponent : Option Int) : Option Json :=
  let (significand, dropped) := appendWhole 0 digits
  let signed (x : Float) : Json := real (if negative then -x else x)
  if fraction.isEmpty && exponent.isNone && dropped = 0 then
    if !negative then some (whole significand)
    else if significand = 0 || Nat.pow 2 63 < significand then
      some (signed (Float.ofNat significand))
    else some (whole (-significand))
  else
    let (significand, taken) := appendFraction significand fraction
    (scale (Float.ofNat significand) (dropped - taken + exponent.getD 0)).map signed

/-- A number at the front of a text; a leading zero stands alone. -/
def readNumber (s : List Char) : Option (Json × List Char) := do
  let (negative, s) := match s with
    | '-' :: rest => (true, rest)
    | s => (false, s)
  let (digits, s) := Numeral.splitDigits s
  match digits with
  | [] => none
  | '0' :: _ :: _ => none
  | _ =>
    let (fraction, s) ← readFraction s
    let (exponent, s) ← readExponent s
    let j ← number negative digits fraction exponent
    return (j, s)

/-! ## Strings -/

/-- The value of a hexadecimal digit. -/
def hexValue (c : Char) : Option Nat :=
  if '0' ≤ c && c ≤ '9' then some (c.toNat - '0'.toNat)
  else if 'a' ≤ c && c ≤ 'f' then some (c.toNat - 'a'.toNat + 10)
  else if 'A' ≤ c && c ≤ 'F' then some (c.toNat - 'A'.toNat + 10)
  else none

/-- The number of four hexadecimal digits at the front of a text, and the rest. -/
def readHex : List Char → Option (Nat × List Char)
  | a :: b :: c :: d :: rest => do
    let a ← hexValue a
    let b ← hexValue b
    let c ← hexValue c
    let d ← hexValue d
    return (((a * 16 + b) * 16 + c) * 16 + d, rest)
  | _ => none

/-- The character behind `\u`: one code unit, or a leading surrogate with its trailing one. -/
def readUnits (s : List Char) : Option (Char × List Char) := do
  let (high, s) ← readHex s
  if 0xd800 ≤ high && high < 0xdc00 then
    match s with
    | '\\' :: 'u' :: s =>
      let (low, s) ← readHex s
      if 0xdc00 ≤ low && low < 0xe000 then
        return (Char.ofNat (0x10000 + (high - 0xd800) * 0x400 + (low - 0xdc00)), s)
      else none
    | _ => none
  else if 0xdc00 ≤ high && high < 0xe000 then none
  else return (Char.ofNat high, s)

/-- One character of a string, written as itself or escaped, and the rest. -/
def readChar : List Char → Option (Char × List Char)
  | '\\' :: 'u' :: rest => readUnits rest
  | '\\' :: c :: rest =>
    if c = '"' || c = '\\' || c = '/' then some (c, rest)
    else if c = 'b' then some ('\x08', rest)
    else if c = 'f' then some ('\x0c', rest)
    else if c = 'n' then some ('\n', rest)
    else if c = 'r' then some ('\r', rest)
    else if c = 't' then some ('\t', rest)
    else none
  | c :: rest => if c < ' ' || c = '\\' then none else some (c, rest)
  | [] => none

/-- The characters up to the closing quote, at most `bound` of them. -/
def readChars (bound : Nat) (s : List Char) : Option (List Char × List Char) :=
  match bound, s with
  | _, '"' :: rest => some ([], rest)
  | 0, _ => none
  | bound + 1, s => do
    let (c, s) ← readChar s
    let (cs, s) ← readChars bound s
    return (c :: cs, s)

/-- A string of at most `bound` characters, whose opening quote has been read. -/
def readText (bound : Nat) (s : List Char) : Option (String × List Char) :=
  (readChars bound s).map fun (cs, rest) => (String.ofList cs, rest)

/-! ## Values -/

mutual

/-- A value at the front of a text, with at most `depth` levels of nesting. Every character takes at
most two steps, so a bound of twice the length of the text is never met. -/
def readValue (bound depth : Nat) (s : List Char) : Option (Json × List Char) :=
  match bound with
  | 0 => none
  | bound + 1 =>
    match skipBlanks s with
    | 'n' :: 'u' :: 'l' :: 'l' :: rest => some (null, rest)
    | 't' :: 'r' :: 'u' :: 'e' :: rest => some (bool true, rest)
    | 'f' :: 'a' :: 'l' :: 's' :: 'e' :: rest => some (bool false, rest)
    | '"' :: rest => (readText bound rest).map fun (s, rest) => (text s, rest)
    | '[' :: rest =>
      match depth, skipBlanks rest with
      | 0, _ => none
      | _, ']' :: rest => some (array [], rest)
      | depth + 1, rest => (readItems bound depth rest).map fun (js, rest) => (array js, rest)
    | '\x7b' :: rest =>
      match depth, skipBlanks rest with
      | 0, _ => none
      | _, '\x7d' :: rest => some (object [], rest)
      | depth + 1, rest => (readFields bound depth rest).map fun (fs, rest) => (object fs, rest)
    | s => readNumber s

/-- The items of an array up to its closing bracket; there is at least one. -/
def readItems (bound depth : Nat) (s : List Char) : Option (List Json × List Char) :=
  match bound with
  | 0 => none
  | bound + 1 => do
    let (j, s) ← readValue bound depth s
    match skipBlanks s with
    | ',' :: rest =>
      let (js, rest) ← readItems bound depth rest
      return (j :: js, rest)
    | ']' :: rest => return ([j], rest)
    | _ => none

/-- The fields of an object up to its closing brace; there is at least one. -/
def readFields (bound depth : Nat) (s : List Char) : Option (List (String × Json) × List Char) :=
  match bound with
  | 0 => none
  | bound + 1 =>
    match skipBlanks s with
    | '"' :: rest => do
      let (k, rest) ← readText bound rest
      match skipBlanks rest with
      | ':' :: rest =>
        let (j, rest) ← readValue bound depth rest
        match skipBlanks rest with
        | ',' :: rest =>
          let (fs, rest) ← readFields bound depth rest
          return ((k, j) :: fs, rest)
        | '\x7d' :: rest => return ([(k, j)], rest)
        | _ => none
      | _ => none
    | _ => none

end

/-- The value at the front of a text, and what follows it. -/
def readFirst (s : List Char) : Option (Json × List Char) :=
  readValue (2 * s.length + 1) depthLimit s

/-- The value that a whole text stands for. -/
def read? (s : String) : Option Json :=
  match readFirst s.toList with
  | some (j, rest) => if (skipBlanks rest).isEmpty then some j else none
  | none => none

end TuneBlocks.Json
