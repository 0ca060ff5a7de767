import TuneBlocks.Blocks.Standard
import TuneBlocks.Proofs.Slices

/-!
# What a thread does

The effects of a thread are its writes to memory and its calls, in order.
`Interpreter.effectsAfter` collects them along the turns of any sequence of slices.
-/

namespace TuneBlocks

/-! ## Effects -/

/-- Something that a thread does to its memory or calls for. -/
inductive Effect where
  | declare (name : String) (v : Value)
  | assign (name : String) (v : Value)
  | call (name : String) (args : List Value)
deriving DecidableEq

namespace Memory

/-- The value of an operand. -/
def resolve (m : Memory) : Operand → Value
  | .literal v => v
  | .var name => m.lookup name

/-- The memory after an effect. What a call writes is an effect of its own. -/
def perform (m : Memory) : Effect → Memory
  | .declare name v => m.declare name v
  | .assign name v => m.assign name v
  | .call _ _ => m

/-- The memory after some effects. -/
def performAll (m : Memory) (es : List Effect) : Memory := es.foldl perform m

theorem performAll_append (m : Memory) (es es' : List Effect) :
    m.performAll (es ++ es') = (m.performAll es).performAll es' :=
  List.foldl_append

end Memory

/-- The call that an effect is. -/
def Effect.call? : Effect → Option (String × List Value)
  | .call name args => some (name, args)
  | .declare .. | .assign .. => none

/-- The calls among some effects, in order. -/
def Effect.calls (es : List Effect) : List (String × List Value) := es.filterMap call?

theorem Effect.calls_append (es es' : List Effect) : calls (es ++ es') = calls es ++ calls es' :=
  List.filterMap_append

/-- The variable that an effect writes. -/
def Effect.written? : Effect → Option String
  | .declare name _ | .assign name _ => some name
  | .call _ _ => none

/-- Effects that do not write a variable leave its value alone. -/
theorem Memory.lookup_performAll {es : List Effect} {name : String}
    (h : ∀ e ∈ es, e.written? ≠ some name) (m : Memory) :
    (m.performAll es).lookup name = m.lookup name := by
  induction es generalizing m with
  | nil => rfl
  | cons e es ih =>
    have hfirst : (m.perform e).lookup name = m.lookup name := by
      have hother := h e List.mem_cons_self
      cases e with
      | declare x v =>
        have hne : name ≠ x := fun hname => hother (congrArg some hname.symm)
        rw [lookup, perform, get?_declare, if_neg hne, lookup]
      | assign x v =>
        have hne : name ≠ x := fun hname => hother (congrArg some hname.symm)
        rw [lookup, perform, get?_assign, if_neg hne, lookup]
      | call => rfl
    exact (ih (fun e he => h e (List.mem_cons_of_mem _ he)) _).trans hfirst

theorem Context.resolve_eq (c : Context) : c.resolve = c.memory.resolve := by
  funext o
  cases o <;> rfl

/-- What a call of the music blocks writes to the memory of its thread. -/
def Music.writes (name : String) (args : List Value) : List Effect :=
  if name = "set_tempo" then [.assign tempoVariable (.number (arg args 0).toNumber)] else []

/-- What a call writes is no call. -/
theorem Music.calls_writes (name : String) (args : List Value) :
    Effect.calls (writes name args) = [] := by
  unfold writes
  split <;> rfl

/-- What an action does, with its operands as they are in a memory. -/
def Action.effects (m : Memory) : Action → List Effect
  | .declare name v => [.declare name (m.resolve v)]
  | .assign name v => [.assign name (m.resolve v)]
  | .add name amount => [.assign name ((m.lookup name).add (m.resolve amount))]
  | .call name args =>
    .call name (args.map m.resolve) :: Music.writes name (args.map m.resolve)
  | .jump _ | .branch .. | .yield => []

/-- What an action does when it is executed: a call that nobody answers does nothing. -/
def Action.effectsIn {σ : Type} (registry : Registry σ) (m : Memory) (a : Action) :
    List Effect :=
  match a with
  | .call name _ => if (registry.handler? name).isSome then a.effects m else []
  | _ => a.effects m

namespace Interpreter

variable {σ : Type}

/-- The effects of one turn. -/
def turnEffects (registry : Registry σ) (routine : Routine) (breakpoints : List NodeId)
    (c : Context) : List Effect :=
  match fetch? routine c with
  | none => []
  | some i =>
    match stopsAt? breakpoints c i with
    | some _ => []
    | none => i.action.effectsIn registry c.memory

/-- The effects of the turns of a slice. -/
def runEffects (registry : Registry σ) (routine : Routine) (breakpoints : List NodeId)
    (now : Float) : Nat → Context → σ → List Effect
  | 0, _, _ => []
  | budget + 1, c, w =>
    turnEffects registry routine breakpoints c ++
      match turn registry routine breakpoints now c w with
      | .stop _ => []
      | .next c w => runEffects registry routine breakpoints now budget c w

/-- The effects of the slice that a call asks for. -/
def answerEffects (m : Interpreter σ) (routine : String) (c : Context) (call : SliceCall σ) :
    List Effect :=
  match m.program.routine? routine with
  | none => []
  | some r => runEffects m.registry r call.breakpoints call.now call.budget c call.world

/-- The effects of a sequence of slices. -/
def effectsAfter (m : Interpreter σ) (routine : String) (c : Context) :
    List (SliceCall σ) → List Effect
  | [] => []
  | call :: calls =>
    m.answerEffects routine c call ++
      m.effectsAfter routine (m.answer routine c call).context calls

end Interpreter

end TuneBlocks
