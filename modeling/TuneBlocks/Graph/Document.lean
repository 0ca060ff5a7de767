import TuneBlocks.Graph.Basic
import TuneBlocks.Json.Reader
import TuneBlocks.Json.Writer

/-!
# Graph documents

A graph is stored as a JSON document in one of two shapes: a list of nodes, or an object whose field
`blocks` holds the nodes under their ids. A node is an object with its fields by name, or an array
with its fields in order. Fields that are not known are ignored; a known field must not repeat.
-/

namespace TuneBlocks

/-- Why a document is not a graph. -/
inductive GraphError where
  /-- The text is not JSON. -/
  | syntactic
  /-- The JSON value is of neither shape. -/
  | shape
  | duplicateNode (id : NodeId)
  | idMismatch (key id : NodeId)
deriving DecidableEq

namespace GraphError

def message : GraphError → String
  | syntactic => "malformed graph document: <syntax>"
  | shape =>
    "malformed graph document: data did not match any variant of untagged enum GraphDocument"
  | duplicateNode id => "duplicate node id '" ++ id ++ "'"
  | idMismatch key id => "node keyed '" ++ key ++ "' declares id '" ++ id ++ "'"

end GraphError

/-- A document with its nodes read: a list, or a table of nodes under their keys. -/
inductive GraphDocument where
  | list (nodes : List Node)
  | keyed (nodes : Keyed Node)

namespace Node

/-! ## Nodes as JSON -/

def toJson (n : Node) : Json :=
  let link (name : String) (target : Option NodeId) : List (String × Json) :=
    match target with
    | some id => [(name, .text id)]
    | none => []
  .object <|
    [("id", .text n.id), ("type", .text n.type),
      ("inputs", .object (n.inputs.entries.map fun (k, v) => (k, v.toJson)))] ++
    link "next" n.next ++ link "body" n.body

/-- A link: a node id, or `null` for none. -/
def linkOfJson? : Json → Option (Option NodeId)
  | .null => some none
  | .text id => some (some id)
  | _ => none

def textOfJson? : Json → Option String
  | .text s => some s
  | _ => none

/-- Inputs by name; of a repeated name the first place and the last value count. -/
def inputsOfJson? : Json → Option (Keyed Value)
  | .object fields => do
    let entries ← fields.mapM fun (k, j) => (Value.ofJson? j).map (k, ·)
    return Keyed.ofList entries
  | _ => none

/-- The values that an object gives to a field. -/
def fieldValues (fields : List (String × Json)) (name : String) : List Json :=
  fields.filterMap fun (k, j) => if k = name then some j else none

/-- A field that must be there, once. -/
def requiredField (fields : List (String × Json)) (name : String) (read : Json → Option α) :
    Option α :=
  match fieldValues fields name with
  | [j] => read j
  | _ => none

/-- A field that may be there, once at most. -/
def optionalField (fields : List (String × Json)) (name : String) (read : Json → Option α)
    (default : α) : Option α :=
  match fieldValues fields name with
  | [] => some default
  | [j] => read j
  | _ => none

/-- An element of an array that may end before it. -/
def optionalElement (element : Option Json) (read : Json → Option α) (default : α) : Option α :=
  match element with
  | none => some default
  | some j => read j

def ofJson? : Json → Option Node
  | .object fields => do
    let id ← requiredField fields "id" textOfJson?
    let type ← requiredField fields "type" textOfJson?
    let inputs ← optionalField fields "inputs" inputsOfJson? ∅
    let next ← optionalField fields "next" linkOfJson? none
    let body ← optionalField fields "body" linkOfJson? none
    return { id, type, inputs, next, body }
  | .array (id :: type :: rest) => do
    if 3 < rest.length then none
    let id ← textOfJson? id
    let type ← textOfJson? type
    let inputs ← optionalElement rest[0]? inputsOfJson? ∅
    let next ← optionalElement rest[1]? linkOfJson? none
    let body ← optionalElement rest[2]? linkOfJson? none
    return { id, type, inputs, next, body }
  | _ => none

end Node

namespace GraphDocument

/-- The document that a JSON value of one of the two shapes is. -/
def ofJson? : Json → Option GraphDocument
  | .array items => (items.mapM Node.ofJson?).map list
  | .object fields =>
    Node.requiredField fields "blocks" fun
      | .object blocks => do
        let entries ← blocks.mapM fun (k, j) => (Node.ofJson? j).map (k, ·)
        return keyed (Keyed.ofList entries)
      | _ => none
  | _ => none

end GraphDocument

namespace Graph

/-- Adds nodes in order. -/
def addAll (g : Graph) : List Node → Except GraphError Graph
  | [] => .ok g
  | n :: rest =>
    match g.add? n with
    | some g => g.addAll rest
    | none => .error (.duplicateNode n.id)

/-- Adds nodes in order, each of which must be under its own id. -/
def addKeyed (g : Graph) : List (String × Node) → Except GraphError Graph
  | [] => .ok g
  | (key, n) :: rest =>
    if key ≠ n.id then .error (.idMismatch key n.id)
    else
      match g.add? n with
      | some g => g.addKeyed rest
      | none => .error (.duplicateNode n.id)

def ofDocument : GraphDocument → Except GraphError Graph
  | .list nodes => empty.addAll nodes
  | .keyed nodes => empty.addKeyed nodes.entries

/-- The graph that a document text holds. The shape of its first value is judged before anything
that follows the value is looked at. -/
def ofText (s : String) : Except GraphError Graph :=
  match Json.readFirst s.toList with
  | none => .error .syntactic
  | some (j, rest) =>
    match GraphDocument.ofJson? j with
    | none => .error .shape
    | some doc => if (Json.skipBlanks rest).isEmpty then ofDocument doc else .error .syntactic

end Graph

end TuneBlocks
