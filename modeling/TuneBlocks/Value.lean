import TuneBlocks.Decimal.Format
import TuneBlocks.Decimal.Read
import TuneBlocks.Json.Basic

/-!
# Values

The values of block inputs and of variables: numbers, truth values and texts. Arithmetic and order
are those of the doubles; truth values and texts count as numbers where a number is asked for.
-/

namespace TuneBlocks

/-- A value of a block input or of a variable. -/
inductive Value where
  | number (x : Float)
  | bool (b : Bool)
  | text (s : String)
deriving DecidableEq

/-- The relations that a branch can test. -/
inductive Comparison where
  | lt
  | le
  | eq
  | ge
deriving DecidableEq

namespace Comparison

def symbol : Comparison → String
  | lt => "<"
  | le => "<="
  | eq => "=="
  | ge => ">="

def ofSymbol? : String → Option Comparison
  | "<" => some lt
  | "<=" => some le
  | "==" => some eq
  | ">=" => some ge
  | _ => none

end Comparison

namespace Value

def zero : Value := number 0

instance : Inhabited Value := ⟨zero⟩

/-- The number a value counts as; a text that is no finite numeral counts as zero. -/
def toNumber : Value → Float
  | number x => x
  | bool b => if b then 1 else 0
  | text s => (Numeral.readFinite? s).getD 0

/-- Whether a value is a number or a text that is a finite numeral. -/
def isNumeric : Value → Bool
  | number _ => true
  | bool _ => false
  | text s => (Numeral.readFinite? s).isSome

/-- The sum of two values as numbers. -/
def add (a b : Value) : Value := number (a.toNumber + b.toNumber)

/-- Whether two values are of one kind and the same; the two zeros are the same number, and
not-a-number is the same as itself. -/
def same : Value → Value → Bool
  | number x, number y => x.toBits == y.toBits || x == y
  | bool a, bool b => a == b
  | text s, text t => s == t
  | _, _ => false

/-- Tests a relation between two values. Order is that of the numbers they count as; equality is
that of the numbers where both are numeric, and sameness otherwise. -/
def compare (op : Comparison) (a b : Value) : Bool :=
  match op with
  | .lt => a.toNumber < b.toNumber
  | .le => a.toNumber ≤ b.toNumber
  | .ge => b.toNumber ≤ a.toNumber
  | .eq => if a.isNumeric && b.isNumeric then a.toNumber == b.toNumber else a.same b

/-- A value as it is displayed. -/
def display : Value → String
  | number x => NumberFormat.display.render x
  | bool b => if b then "true" else "false"
  | text s => s

def toJson : Value → Json
  | number x => .real x
  | bool b => .bool b
  | text s => .text s

def ofJson? : Json → Option Value
  | .whole n => some (number (Float.ofInt n))
  | .real x => some (number x)
  | .bool b => some (bool b)
  | .text s => some (text s)
  | _ => none

end Value

end TuneBlocks
