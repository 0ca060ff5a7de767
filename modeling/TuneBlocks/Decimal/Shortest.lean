/-!
# Shortest decimals

A finite double is `mantissa * 2 ^ exponent`. The decimals that read back as it fill the interval
between the midpoints to its two neighbours; `Binary.shortest` takes the decimal of fewest digits in
that interval, and of several the one nearest to the value. All arithmetic is exact.
-/

namespace TuneBlocks

/-- The decimal `digits * 10 ^ exponent`. -/
structure Decimal where
  digits : Nat
  exponent : Int
deriving DecidableEq

/-- A finite magnitude `mantissa * 2 ^ exponent` in the double format. `narrowBelow` holds when the
next smaller double is half as far away as the next larger one. -/
structure Binary where
  mantissa : Nat
  exponent : Int
  narrowBelow : Bool
deriving DecidableEq

/-- What the bits of a double say, the sign apart. -/
inductive Magnitude where
  | nan
  | infinite
  | finite (x : Binary)
deriving DecidableEq

/-- Which of two equally near neighbours a rounding takes. -/
inductive Tie where
  /-- The larger one. -/
  | up
  /-- The even one. -/
  | even
deriving DecidableEq

/-- The sign (`true` for minus) and the magnitude of a double. -/
def Magnitude.ofFloat (x : Float) : Bool × Magnitude :=
  let bits := x.toBits.toNat
  let fraction := bits % Nat.pow 2 52
  let field : Nat := bits / Nat.pow 2 52 % Nat.pow 2 11
  let magnitude :=
    if field = 2047 then (if fraction = 0 then infinite else nan)
    else if field = 0 then finite ⟨fraction, -1074, false⟩
    else finite ⟨Nat.pow 2 52 + fraction, (field : Int) - 1075, fraction = 0 && 1 < field⟩
  (bits / Nat.pow 2 63 = 1, magnitude)

namespace Binary

/-- Compares the decimal `c * 10 ^ p` with `b * 2 ^ e`. -/
def compareDecimal (c : Nat) (p : Int) (b : Nat) (e : Int) : Ordering :=
  compare (c * Nat.pow 10 p.toNat * Nat.pow 2 (-e).toNat)
    (b * Nat.pow 2 e.toNat * Nat.pow 10 (-p).toNat)

/-- Whether the decimal `c * 10 ^ p` rounds to `x`: it lies between the midpoints to the neighbours
of `x`, and may be a midpoint itself when the mantissa is even. -/
def isReadFrom (x : Binary) (c : Nat) (p : Int) : Bool :=
  let low := 4 * x.mantissa - (if x.narrowBelow then 1 else 2)
  let high := 4 * x.mantissa + 2
  let closed := x.mantissa % 2 = 0
  let aboveLow := match compareDecimal c p low (x.exponent - 2) with
    | .lt => false
    | .eq => closed
    | .gt => true
  let belowHigh := match compareDecimal c p high (x.exponent - 2) with
    | .lt => true
    | .eq => closed
    | .gt => false
  aboveLow && belowHigh

/-- The largest `c` with `c * 10 ^ p ≤ x`. -/
def floorAt (x : Binary) (p : Int) : Nat :=
  (x.mantissa * Nat.pow 2 x.exponent.toNat * Nat.pow 10 (-p).toNat) /
    (Nat.pow 2 (-x.exponent).toNat * Nat.pow 10 p.toNat)

/-- The exponent of ten of the leading digit of a positive `x`. No double below one is a power of
ten, so there the digits of the reciprocal tell it. -/
def leadingExponent (x : Binary) : Int :=
  let num := x.mantissa * Nat.pow 2 x.exponent.toNat
  let den := Nat.pow 2 (-x.exponent).toNat
  if den ≤ num then ((Nat.toDigits 10 (num / den)).length : Int) - 1
  else -((Nat.toDigits 10 (den / num)).length : Int)

/-- The multiple of `10 ^ p` that reads back as `x`, if its lower or upper neighbour there does. -/
def roundedAt (tie : Tie) (x : Binary) (p : Int) : Option Decimal :=
  let c := x.floorAt p
  match x.isReadFrom c p, x.isReadFrom (c + 1) p with
  | false, false => none
  | true, false => some ⟨c, p⟩
  | false, true => some ⟨c + 1, p⟩
  | true, true =>
    match compareDecimal (2 * c + 1) p (2 * x.mantissa) x.exponent, tie with
    | .gt, _ => some ⟨c, p⟩
    | .lt, _ => some ⟨c + 1, p⟩
    | .eq, .up => some ⟨c + 1, p⟩
    | .eq, .even => some ⟨if c % 2 = 0 then c else c + 1, p⟩

/-- The decimal of fewest digits that reads back as a positive `x`; seventeen always suffice. A
value just below a power of ten is rounded up to ten units of its leading digit, which is one unit
of the place above. -/
def shortest (tie : Tie) (x : Binary) : Decimal :=
  let lead := x.leadingExponent
  match (List.range 17).findSome? fun (n : Nat) => x.roundedAt tie (lead - n) with
  | some ⟨10, p⟩ => ⟨1, p + 1⟩
  | some d => d
  | none => ⟨x.floorAt (lead - 16), lead - 16⟩

/-- The nearest multiple of `10 ^ -places`, counted in that unit; a half goes to the even side. -/
def roundToPlaces (x : Binary) (places : Nat) : Nat :=
  let num := x.mantissa * Nat.pow 2 x.exponent.toNat * Nat.pow 10 places
  let den := Nat.pow 2 (-x.exponent).toNat
  let c := num / den
  match compare (2 * (num % den)) den with
  | .lt => c
  | .gt => c + 1
  | .eq => if c % 2 = 0 then c else c + 1

end Binary

end TuneBlocks
