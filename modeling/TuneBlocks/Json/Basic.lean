/-!
# JSON values
-/

namespace TuneBlocks

/-- A JSON value. Whole numbers of 64 bits stay exact; fields keep their order and may repeat. -/
inductive Json where
  | null
  | bool (b : Bool)
  | whole (n : Int)
  | real (x : Float)
  | text (s : String)
  | array (items : List Json)
  | object (fields : List (String × Json))
deriving Inhabited

end TuneBlocks
