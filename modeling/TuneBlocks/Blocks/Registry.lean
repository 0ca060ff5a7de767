import TuneBlocks.Thread.Context
import TuneBlocks.Lowering.Chain

/-!
# Registries

A registry holds the block types of a program family: how each is lowered, what its calls do while
a thread runs, and what has to happen before and after a run. Blocks usually come in plugins. What
calls and hooks act on besides the thread is the world, of any type.
-/

namespace TuneBlocks

/-- What a call leaves behind: an end of the slice, if it asks for one, the thread and the world. -/
structure Reply (σ : Type) where
  status : Option Status
  context : Context
  world : σ

/-- What a call does, given its arguments and the time. -/
abbrev Handler (σ : Type) := List Value → Float → Context → σ → Reply σ

/-- An action before or after a run, which may fail with a message. -/
abbrev Hook (σ : Type) := σ → Except String Unit × σ

/-- A block type. -/
structure BlockDef (σ : Type) where
  type : String
  rule : Option LoweringRule := none
  handler : Option (Handler σ) := none
  setUp : Option (Hook σ) := none
  cleanUp : Option (Hook σ) := none

/-- The hooks of a plugin. -/
structure PluginHooks (σ : Type) where
  name : String
  setUp : Option (Hook σ) := none
  cleanUp : Option (Hook σ) := none

/-- Block types that are registered together, and hooks of their own. -/
structure Plugin (σ : Type) extends PluginHooks σ where
  blocks : List (BlockDef σ)

/-- Block types by name, and the plugins they came with. -/
structure Registry (σ : Type) where
  plugins : List (PluginHooks σ)
  blocks : Keyed (BlockDef σ)

/-- A failed hook: the plugin or block type it belongs to, and its message. -/
inductive HookError where
  | setUp (owner message : String)
  | cleanUp (owner message : String)
deriving DecidableEq

namespace HookError

def message : HookError → String
  | setUp owner message => "initialization of '" ++ owner ++ "' failed: " ++ message
  | cleanUp owner message => "cleanup of '" ++ owner ++ "' failed: " ++ message

end HookError

namespace Registry

variable {σ : Type}

def empty : Registry σ := ⟨[], ∅⟩

instance : Inhabited (Registry σ) := ⟨empty⟩

/-! ## Registration -/

/-- Registers a block type; one that is known is replaced and keeps its place. -/
def addBlock (r : Registry σ) (b : BlockDef σ) : Registry σ :=
  { r with blocks := r.blocks.insert b.type b }

/-- Registers the handler of a call; a block type of that name keeps all else. -/
def addHandler (r : Registry σ) (name : String) (handler : Handler σ) : Registry σ :=
  { r with blocks := r.blocks.upsert name fun
      | some b => { b with handler := some handler }
      | none => { type := name, handler := some handler } }

/-- Registers the blocks of a plugin, then its hooks behind all others; the hooks of an earlier
plugin of that name are dropped. -/
def addPlugin (r : Registry σ) (p : Plugin σ) : Registry σ :=
  let r := p.blocks.foldl addBlock r
  { r with plugins := r.plugins.filter (·.name != p.name) ++ [p.toPluginHooks] }

/-! ## Queries -/

def block? (r : Registry σ) (type : String) : Option (BlockDef σ) := r.blocks.get? type

@[simp] theorem block?_empty (type : String) : (empty : Registry σ).block? type = none := rfl

@[simp] theorem block?_addBlock (r : Registry σ) (b : BlockDef σ) (type : String) :
    (r.addBlock b).block? type = if type = b.type then some b else r.block? type :=
  Keyed.get?_insert _ _ _ _

@[simp] theorem block?_addPlugin (r : Registry σ) (p : Plugin σ) (type : String) :
    (r.addPlugin p).block? type = (p.blocks.foldl addBlock r).block? type := rfl

def handler? (r : Registry σ) (name : String) : Option (Handler σ) :=
  (r.block? name).bind BlockDef.handler

/-- The rules of the block types, for lowering. -/
def rules (r : Registry σ) : LoweringRules := fun type => (r.block? type).bind BlockDef.rule

def blockTypes (r : Registry σ) : List String := r.blocks.keys

def pluginNames (r : Registry σ) : List String := r.plugins.map PluginHooks.name

/-! ## Hooks -/

/-- The hooks to run before a program, with their owners: those of the plugins, then those of the
block types. -/
def setUpHooks (r : Registry σ) : List (String × Hook σ) :=
  r.plugins.filterMap (fun p => p.setUp.map (p.name, ·)) ++
    r.blocks.values.filterMap (fun b => b.setUp.map (b.type, ·))

/-- The hooks to run after a program, with their owners, in the same order. -/
def cleanUpHooks (r : Registry σ) : List (String × Hook σ) :=
  r.plugins.filterMap (fun p => p.cleanUp.map (p.name, ·)) ++
    r.blocks.values.filterMap (fun b => b.cleanUp.map (b.type, ·))

/-- Runs hooks up to the first that fails. -/
def runUntilFailure : List (String × Hook σ) → σ → Except HookError Unit × σ
  | [], w => (.ok (), w)
  | (owner, hook) :: rest, w =>
    match hook w with
    | (.ok (), w) => runUntilFailure rest w
    | (.error message, w) => (.error (.setUp owner message), w)

/-- Runs all hooks; the result is the first failure. -/
def runAll : List (String × Hook σ) → σ → Except HookError Unit × σ
  | [], w => (.ok (), w)
  | (owner, hook) :: rest, w =>
    match hook w with
    | (.ok (), w) => runAll rest w
    | (.error message, w) => (.error (.cleanUp owner message), (runAll rest w).2)

def setUpAll (r : Registry σ) : σ → Except HookError Unit × σ := runUntilFailure r.setUpHooks

def cleanUpAll (r : Registry σ) : σ → Except HookError Unit × σ := runAll r.cleanUpHooks

end Registry

end TuneBlocks
