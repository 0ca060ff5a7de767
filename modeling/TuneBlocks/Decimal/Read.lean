import TuneBlocks.Decimal.Shortest
import TuneBlocks.Text.Blank

/-!
# Reading numbers

The decimal numerals that stand for a double: an optional sign, digits with an optional point among
or beside them, and an optional exponent; or one of the words `inf`, `infinity` and `nan` in any
case. The double is the one nearest to the decimal.
-/

namespace TuneBlocks

/-- The double nearest to a decimal. Decimals far outside the range of doubles are settled by their
number of digits, so that no huge power of ten is computed. -/
def Decimal.toFloat (d : Decimal) : Float :=
  let lead := ((Nat.toDigits 10 d.digits).length : Int) + d.exponent
  if d.digits = 0 || lead < -400 then 0
  else if 400 < lead then Float.ofBits 0x7ff0000000000000
  else if 0 ≤ d.exponent then Float.ofScientific d.digits false d.exponent.toNat
  else Float.ofScientific d.digits true (-d.exponent).toNat

namespace Numeral

/-- The value of a string of decimal digits read after the digits of `start`. -/
def digitsValue (start : Nat) (ds : List Char) : Nat :=
  ds.foldl (fun n c => 10 * n + (c.toNat - '0'.toNat)) start

/-- The digits at the front of a text, and the rest. -/
def splitDigits (s : List Char) : List Char × List Char :=
  (s.takeWhile Char.isDigit, s.dropWhile Char.isDigit)

/-- An optional sign (`true` for minus), and the rest. -/
def splitSign : List Char → Bool × List Char
  | '-' :: rest => (true, rest)
  | '+' :: rest => (false, rest)
  | s => (false, s)

/-- The exponent that ends a numeral: nothing at all, or `e` with an optional sign and digits. -/
def readExponent : List Char → Option Int
  | [] => some 0
  | c :: rest =>
    if c = 'e' || c = 'E' then
      let (negative, rest) := splitSign rest
      match splitDigits rest with
      | ([], _) => none
      | (ds, []) => some (if negative then -(digitsValue 0 ds : Int) else digitsValue 0 ds)
      | _ => none
    else none

/-- An unsigned decimal numeral; a point needs a digit on one of its sides. -/
def readDecimal (s : List Char) : Option Decimal :=
  let (whole, rest) := splitDigits s
  let (fraction, rest) := match rest with
    | '.' :: rest => splitDigits rest
    | rest => ([], rest)
  if whole.isEmpty && fraction.isEmpty then none
  else
    (readExponent rest).map fun e =>
      ⟨digitsValue (digitsValue 0 whole) fraction, e - fraction.length⟩

/-- The words for infinity and for no number, in any mixture of cases. -/
def readWord (s : List Char) : Option Float :=
  let word := String.ofList (s.map Char.toLower)
  if word = "inf" || word = "infinity" then some (Float.ofBits 0x7ff0000000000000)
  else if word = "nan" then some (Float.ofBits 0x7ff8000000000000)
  else none

/-- The double that a numeral stands for; blanks around it are not allowed. -/
def read? (s : List Char) : Option Float :=
  let (negative, rest) := splitSign s
  let magnitude := match readDecimal rest with
    | some d => some d.toFloat
    | none => readWord rest
  magnitude.map fun x => if negative then -x else x

/-- The finite double that a text stands for, blanks around the numeral being ignored. -/
def readFinite? (s : String) : Option Float :=
  (read? (Text.trim s.toList)).filter Float.isFinite

end Numeral

end TuneBlocks
