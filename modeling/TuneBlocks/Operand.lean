import TuneBlocks.Text.Quoted
import TuneBlocks.Value

/-!
# Operands

What an instruction works on: a value, or a variable that is read when the instruction runs.
-/

namespace TuneBlocks

inductive Operand where
  | literal (v : Value)
  | var (name : String)
deriving DecidableEq

namespace Operand

/-- The operand that a block input stands for: a text of a dollar sign and a name is the variable
of that name, anything else is itself. -/
def ofInput : Value → Operand
  | .text s =>
    match s.toList with
    | '$' :: c :: rest => var (String.ofList (c :: rest))
    | _ => literal (.text s)
  | v => literal v

/-- The operand in a listing: texts in quotes, variables behind a dollar sign. -/
def listing : Operand → String
  | literal (.text s) => Text.quote s
  | literal v => v.display
  | var name => "$" ++ name

end Operand

end TuneBlocks
