import TuneBlocks.Proofs.Effects
import TuneBlocks.Proofs.Recording
import TuneBlocks.Session

/-!
# Journals

`Registry.journaled` is a registry whose world has a journal beside it: every hook enters that it
was called and what it answered, every handler enters its call, and all else is left to the hooks
and handlers of the registry it is made from. A turn over it is the turn over that registry, with
the calls among the effects of the turn entered in the journal (`Interpreter.turn_journaled`). A run
is the run over that registry, step by step, with the calls of its slices entered
(`Scheduler.performAll_journaled`). So the journal tells which hooks and handlers a run calls, for
hooks, handlers and worlds of any kind.
-/

namespace TuneBlocks

inductive Phase where
  | setUp
  | cleanUp
deriving DecidableEq

/-- Who has a hook: the plugin or the block type at a place of the registry. -/
inductive Holder where
  | plugin (place : Nat) (name : String)
  | block (place : Nat) (type : String)
deriving DecidableEq

def Holder.name : Holder → String
  | plugin _ name => name
  | block _ type => type

/-- A call of a hook, with its message if it failed. -/
structure HookCall where
  holder : Holder
  failure : Option String
deriving DecidableEq

inductive JournalEntry where
  | hook (phase : Phase) (call : HookCall)
  | call (name : String) (args : List Value)
deriving DecidableEq

/-- The entries of some calls of handlers. -/
def callEntries (calls : List (String × List Value)) : List JournalEntry :=
  calls.map fun (name, args) => .call name args

theorem append_callEntries_nil (l : List JournalEntry) : l ++ callEntries [] = l :=
  List.append_nil l

theorem callEntries_append (calls calls' : List (String × List Value)) :
    callEntries (calls ++ calls') = callEntries calls ++ callEntries calls' :=
  List.map_append

structure Journaled (σ : Type) where
  world : σ
  journal : List JournalEntry

variable {σ : Type}

def PluginHooks.hook? (p : PluginHooks σ) : Phase → Option (Hook σ)
  | .setUp => p.setUp
  | .cleanUp => p.cleanUp

def BlockDef.hook? (b : BlockDef σ) : Phase → Option (Hook σ)
  | .setUp => b.setUp
  | .cleanUp => b.cleanUp

/-- The hook, which also enters its call. -/
def journaledHook (phase : Phase) (holder : Holder) (hook : Hook σ) : Hook (Journaled σ) := fun v =>
  match hook v.world with
  | (.ok (), w) => (.ok (), ⟨w, v.journal ++ [.hook phase ⟨holder, none⟩]⟩)
  | (.error message, w) =>
    (.error message, ⟨w, v.journal ++ [.hook phase ⟨holder, some message⟩]⟩)

/-- The handler, which also enters its call. -/
def journaledHandler (name : String) (handler : Handler σ) : Handler (Journaled σ) :=
  fun args now c v =>
    let reply := handler args now c v.world
    ⟨reply.status, reply.context, ⟨reply.world, v.journal ++ [.call name args]⟩⟩

def PluginHooks.journaled (p : PluginHooks σ) (place : Nat) : PluginHooks (Journaled σ) where
  name := p.name
  setUp := p.setUp.map (journaledHook .setUp (.plugin place p.name))
  cleanUp := p.cleanUp.map (journaledHook .cleanUp (.plugin place p.name))

def BlockDef.journaled (b : BlockDef σ) (key : String) (place : Nat) : BlockDef (Journaled σ) where
  type := b.type
  rule := b.rule
  handler := b.handler.map (journaledHandler key)
  setUp := b.setUp.map (journaledHook .setUp (.block place b.type))
  cleanUp := b.cleanUp.map (journaledHook .cleanUp (.block place b.type))

namespace Registry

def journaledBlocks (es : List (String × BlockDef σ)) (place : Nat) :
    List (String × BlockDef (Journaled σ)) :=
  (es.zipIdx place).map fun (e, i) => (e.1, e.2.journaled e.1 i)

theorem keys_journaledBlocks (es : List (String × BlockDef σ)) (place : Nat) :
    (journaledBlocks es place).map Prod.fst = es.map Prod.fst := by
  induction es generalizing place with
  | nil => rfl
  | cons e es ih => exact congrArg (e.1 :: ·) (ih (place + 1))

/-- The same blocks and plugins, over a world with a journal. -/
def journaled (r : Registry σ) : Registry (Journaled σ) where
  plugins := r.plugins.zipIdx.map fun (p, i) => p.journaled i
  blocks :=
    { entries := journaledBlocks r.blocks.entries 0
      nodup_keys := (keys_journaledBlocks r.blocks.entries 0).symm ▸ r.blocks.nodup_keys }

/-- The hooks of a phase in their order, those of the plugins and then those of the block types. -/
def hooks (r : Registry σ) (phase : Phase) : List (Holder × Hook σ) :=
  r.plugins.zipIdx.filterMap (fun (p, i) => (p.hook? phase).map (.plugin i p.name, ·)) ++
    r.blocks.values.zipIdx.filterMap (fun (b, i) => (b.hook? phase).map (.block i b.type, ·))

/-- Those whose hooks a phase calls. -/
def holders (r : Registry σ) (phase : Phase) : List Holder := (r.hooks phase).map Prod.fst

theorem findEntry_journaledBlocks (name : String) (es : List (String × BlockDef σ)) (place : Nat) :
    (Keyed.findEntry name (journaledBlocks es place)).bind BlockDef.handler =
      ((Keyed.findEntry name es).bind BlockDef.handler).map (journaledHandler name) := by
  induction es generalizing place with
  | nil => rfl
  | cons e es ih =>
    obtain ⟨key, b⟩ := e
    have hcons : journaledBlocks ((key, b) :: es) place =
        (key, b.journaled key place) :: journaledBlocks es (place + 1) := rfl
    rw [hcons, Keyed.findEntry, Keyed.findEntry]
    by_cases h : key = name
    · subst h
      rw [if_pos rfl, if_pos rfl]
      rfl
    · rw [if_neg h, if_neg h]
      exact ih (place + 1)

theorem handler?_journaled (r : Registry σ) (name : String) :
    r.journaled.handler? name = (r.handler? name).map (journaledHandler name) :=
  findEntry_journaledBlocks name r.blocks.entries 0

end Registry

/-! ## Slices -/

def SliceEnd.journaled (result : SliceEnd σ) (l : List JournalEntry) : SliceEnd (Journaled σ) :=
  ⟨result.status, result.context, ⟨result.world, l⟩⟩

def Turn.journaled (l : List JournalEntry) : Turn σ → Turn (Journaled σ)
  | .stop result => .stop (result.journaled l)
  | .next c w => .next c ⟨w, l⟩

def Machine.journaled (v : Machine σ) (l : List JournalEntry) : Machine (Journaled σ) :=
  ⟨v.breakpoints, ⟨v.world, l⟩⟩

namespace Interpreter

def journaled (m : Interpreter σ) : Interpreter (Journaled σ) := ⟨m.program, m.registry.journaled⟩

theorem execute_journaled (registry : Registry σ) (a : Action) (now : Float) (c : Context) (w : σ)
    (l : List JournalEntry) : execute registry.journaled a now c ⟨w, l⟩ =
      (execute registry a now c w).journaled
        (l ++ callEntries (Effect.calls (a.effectsIn registry c.memory))) := by
  cases a with
  | call name args =>
    cases hhandler : registry.handler? name with
    | none =>
      simp only [execute, Registry.handler?_journaled, hhandler, Action.effectsIn]
      exact congrArg (Turn.journaled · (.next c w)) (append_callEntries_nil l).symm
    | some handler =>
      have hjournaled : registry.journaled.handler? name =
          some (journaledHandler name handler) := by
        rw [Registry.handler?_journaled, hhandler, Option.map_some]
      have hcalls : Effect.calls (Action.effectsIn registry c.memory (.call name args)) =
          [(name, args.map c.resolve)] := by
        simp only [Action.effectsIn, hhandler, Option.isSome_some, ↓reduceIte, Action.effects]
        rw [c.resolve_eq]
        exact congrArg (_ :: ·) (Music.calls_writes name _)
      rw [execute_call hhandler, execute_call hjournaled, hcalls, Reply.turn, Reply.turn]
      simp only [journaledHandler]
      cases (handler (args.map c.resolve) now c w).status with
      | none => rfl
      | some status => rfl
  | _ =>
    change _ = Turn.journaled (l ++ callEntries []) _
    rw [append_callEntries_nil]
    rfl

/-- **A turn calls what its effects say.** -/
theorem turn_journaled (registry : Registry σ) (r : Routine) (breakpoints : List NodeId)
    (now : Float) (c : Context) (w : σ) (l : List JournalEntry) :
    turn registry.journaled r breakpoints now c ⟨w, l⟩ =
      (turn registry r breakpoints now c w).journaled
        (l ++ callEntries (Effect.calls (turnEffects registry r breakpoints c))) := by
  unfold turn turnEffects
  cases fetch? r c with
  | none =>
    exact congrArg (Turn.journaled · (.stop ⟨.halted, c, w⟩)) (append_callEntries_nil l).symm
  | some i =>
    cases hstop : stopsAt? breakpoints c i with
    | some node =>
      simp only [hstop]
      exact congrArg (Turn.journaled · (.stop ⟨.breakpoint node, _, w⟩))
        (append_callEntries_nil l).symm
    | none =>
      simp only [hstop]
      exact execute_journaled registry i.action now (advance c i) w l

theorem run_journaled (registry : Registry σ) (r : Routine) (breakpoints : List NodeId)
    (now : Float) (budget : Nat) (c : Context) (w : σ) (l : List JournalEntry) :
    run registry.journaled r breakpoints now budget c ⟨w, l⟩ =
      (run registry r breakpoints now budget c w).journaled
        (l ++ callEntries (Effect.calls (runEffects registry r breakpoints now budget c w))) := by
  induction budget generalizing c w l with
  | zero => exact congrArg (SliceEnd.journaled ⟨.ready, c, w⟩) (append_callEntries_nil l).symm
  | succ budget ih =>
    simp only [run, runEffects, turn_journaled]
    cases turn registry r breakpoints now c w with
    | stop result => rw [List.append_nil]; rfl
    | next c' w' =>
      rw [Effect.calls_append, callEntries_append, ← List.append_assoc]
      exact ih c' w' _

theorem answer_journaled (m : Interpreter σ) (routine : String) (c : Context) (call : SliceCall σ)
    (l : List JournalEntry) :
    m.journaled.answer routine c { call with world := ⟨call.world, l⟩ } =
      (m.answer routine c call).journaled
        (l ++ callEntries (Effect.calls (m.answerEffects routine c call))) := by
  unfold answer slice answerEffects journaled
  cases m.program.routine? routine with
  | none =>
    exact congrArg (SliceEnd.journaled ⟨.halted, c, call.world⟩) (append_callEntries_nil l).symm
  | some r => exact run_journaled m.registry r call.breakpoints call.now call.budget c call.world l

end Interpreter

/-- What a slice was called with. -/
def Grant.sliceCall (g : Grant (Machine σ)) : SliceCall σ :=
  ⟨g.world.breakpoints, g.budget, g.now, g.world.world⟩

/-- The calls of a slice, in order. -/
def Grant.calls (m : Interpreter σ) (g : Grant (Machine σ)) : List (String × List Value) :=
  Effect.calls (m.answerEffects g.thread.routine g.thread.context g.sliceCall)

/-! ## Operations -/

/-- What is told of breakpoints, over a world with a journal that it leaves alone. -/
def journaledTell (tell : NodeId → Machine σ → Machine σ) :
    NodeId → Machine (Journaled σ) → Machine (Journaled σ) := fun node v =>
  (tell node ⟨v.breakpoints, v.world.world⟩).journaled v.world.journal

def Operation.journaled : Operation (Machine σ) → Operation (Machine (Journaled σ)) :=
  .mapTell journaledTell

def Scheduler.journaled : Scheduler (Machine σ) → Scheduler (Machine (Journaled σ)) :=
  .mapTell journaledTell

/-- A journal is a record of slices, in which their calls are entered. -/
def Interpreter.journaling (m : Interpreter σ) :
    Recording m.executor m.journaled.executor JournalEntry where
  beside := Machine.journaled
  ofSlice g := callEntries (g.calls m)
  ofHit _ := []
  tell := journaledTell
  slice_eq budget now v l t := by
    have hanswer := m.answer_journaled t.2.routine t.2.context
      ⟨v.breakpoints, budget, now, v.world⟩ l
    exact congrArg (fun result : SliceEnd (Journaled σ) =>
      SliceEnd.mk result.status result.context (Machine.mk v.breakpoints result.world)) hanswer
  setBreakpoints_eq _ _ _ := rfl
  tell_eq tell node v l := congrArg (tell node v).journaled (List.append_nil l).symm

/-- **A run calls what its slices call.** The journal does not change the run. -/
theorem Scheduler.performAll_journaled (m : Interpreter σ) (s : Scheduler (Machine σ))
    (v : Machine σ) (l : List JournalEntry) (ops : List (Operation (Machine σ))) :
    let log := ((Roster.of s v).performAll m.executor ops).log
    s.journaled.performAll m.journaled.executor (v.journaled l) (ops.map Operation.journaled) =
      ((s.performAll m.executor v ops).1.journaled,
        (s.performAll m.executor v ops).2.journaled
          (l ++ callEntries (log.flatMap (Grant.calls m)))) := by
  intro log
  have hentries : callEntries (log.flatMap (Grant.calls m)) =
      log.flatMap m.journaling.ofSlice := List.map_flatMap
  rw [hentries]
  exact m.journaling.performAll_eq (fun _ => rfl) s v ops l

end TuneBlocks
