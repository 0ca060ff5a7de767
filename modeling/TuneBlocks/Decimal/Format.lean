import TuneBlocks.Decimal.Shortest

/-!
# Number texts

How a double is written: its shortest decimal laid out in full or with an exponent, as a
`NumberFormat` says, or with a fixed number of places.
-/

namespace TuneBlocks

namespace Decimal

/-- The digits of the significand, most significant first. -/
def digitText (d : Decimal) : String := String.ofList (Nat.toDigits 10 d.digits)

/-- The exponent of ten of the first digit. -/
def leadingExponent (d : Decimal) : Int :=
  ((Nat.toDigits 10 d.digits).length : Int) - 1 + d.exponent

private def zeros (n : Nat) : String := String.ofList (List.replicate n '0')

/-- The decimal written out without an exponent; `whole` follows a whole number. -/
def positional (d : Decimal) (whole : String) : String :=
  let ds := Nat.toDigits 10 d.digits
  if 0 ≤ d.exponent then d.digitText ++ zeros d.exponent.toNat ++ whole
  else
    let places := (-d.exponent).toNat
    if places < ds.length then
      String.ofList (ds.take (ds.length - places)) ++ "." ++
        String.ofList (ds.drop (ds.length - places))
    else "0." ++ zeros (places - ds.length) ++ d.digitText

/-- The decimal with one digit before the point and a signed exponent of ten. -/
def scientific (d : Decimal) : String :=
  let point := match Nat.toDigits 10 d.digits with
    | c :: [] => String.ofList [c]
    | c :: rest => String.ofList (c :: '.' :: rest)
    | [] => ""
  let e := d.leadingExponent
  point ++ "e" ++ (if e < 0 then "-" else "+") ++ toString e.natAbs

end Decimal

/-- How doubles are written. -/
structure NumberFormat where
  /-- Which of two equally near shortest decimals is taken. -/
  tie : Tie
  /-- Whether a number whose first digit has this exponent of ten is written out in full. -/
  inFull : Int → Bool
  /-- What follows a whole number that is written out in full. -/
  whole : String
  nan : String
  infinity : String
  negInfinity : String

namespace NumberFormat

/-- The text of a finite magnitude. -/
def magnitude (f : NumberFormat) (x : Binary) : String :=
  if x.mantissa = 0 then "0" ++ f.whole
  else
    let d := x.shortest f.tie
    if f.inFull d.leadingExponent then d.positional f.whole else d.scientific

/-- The text of a double. -/
def render (f : NumberFormat) (x : Float) : String :=
  match Magnitude.ofFloat x with
  | (_, .nan) => f.nan
  | (false, .infinite) => f.infinity
  | (true, .infinite) => f.negInfinity
  | (false, .finite m) => f.magnitude m
  | (true, .finite m) => "-" ++ f.magnitude m

/-- Numbers in listings, messages and displayed values: always written out in full, whole numbers
without a point. -/
def display : NumberFormat where
  tie := .up
  inFull _ := true
  whole := ""
  nan := "NaN"
  infinity := "inf"
  negInfinity := "-inf"

/-- Numbers in JSON texts: always recognisable as a fraction, with an exponent outside
`10 ^ -5 … 10 ^ 15`; what is not finite has no number there and is `null`. -/
def json : NumberFormat where
  tie := .even
  inFull e := -5 ≤ e && e ≤ 15
  whole := ".0"
  nan := "null"
  infinity := "null"
  negInfinity := "null"

end NumberFormat

/-- A double with exactly one digit after the point; a half goes to the even digit. -/
def tenths (x : Float) : String :=
  let text (m : Binary) : String :=
    let c := m.roundToPlaces 1
    toString (c / 10) ++ "." ++ toString (c % 10)
  match Magnitude.ofFloat x with
  | (_, .nan) => "NaN"
  | (false, .infinite) => "inf"
  | (true, .infinite) => "-inf"
  | (false, .finite m) => text m
  | (true, .finite m) => "-" ++ text m

end TuneBlocks
