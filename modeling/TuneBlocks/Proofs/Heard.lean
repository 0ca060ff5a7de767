import TuneBlocks.Proofs.Breakpoints

/-!
# What is heard of a thread

Apart from their times, the events of a thread follow from its effects: `Registry.heardAll` reads
them off, starting from a memory. Whatever the breakpoints, the budget and the time of a slice are,
it executes some instructions and adds to the sink what is heard of their effects
(`Interpreter.slice_heard`). This needs calls that emit the same at all times (`Registry.Timeless`).
-/

namespace TuneBlocks

/-- An event without its time. -/
def Event.untimed : Event → Event
  | note pitch duration _ => note pitch duration 0
  | volume level db _ => volume level db 0
  | print message _ => print message 0

namespace Registry

/-- What a call emits, times apart. -/
def heard (registry : Registry Sink) (m : Memory) (name : String) (args : List Value) :
    List Event :=
  match registry.handler? name with
  | none => []
  | some handler =>
    (handler args 0 { Context.start "" "" with memory := m } .new).world.events.map Event.untimed

def heardOf (registry : Registry Sink) (m : Memory) : Effect → List Event
  | .call name args => registry.heard m name args
  | .declare .. | .assign .. => []

/-- What is heard of some effects, from a memory on. -/
def heardAll (registry : Registry Sink) : Memory → List Effect → List Event
  | _, [] => []
  | m, e :: es => registry.heardOf m e ++ registry.heardAll (m.perform e) es

theorem heardAll_append (registry : Registry Sink) (m : Memory) (es es' : List Effect) :
    registry.heardAll m (es ++ es') =
      registry.heardAll m es ++ registry.heardAll (m.performAll es) es' := by
  induction es generalizing m with
  | nil => rfl
  | cons e es ih =>
    rw [List.cons_append, heardAll, ih, heardAll, List.append_assoc]
    rfl

/-- What a call writes is not heard. -/
theorem heardAll_writes (registry : Registry Sink) (m : Memory) (name : String)
    (args : List Value) : registry.heardAll m (Music.writes name args) = [] := by
  unfold Music.writes
  split <;> rfl

/-- The sink has been given what is heard of some effects. -/
def Adds (registry : Registry Sink) (m : Memory) (es : List Effect) (w w' : Sink) : Prop :=
  ∃ new, w'.events = w.events ++ new ∧ new.map Event.untimed = registry.heardAll m es

theorem Adds.refl {registry : Registry Sink} (m : Memory) (w : Sink) : registry.Adds m [] w w :=
  ⟨[], (List.append_nil _).symm, rfl⟩

theorem Adds.trans {registry : Registry Sink} {m : Memory} {es es' : List Effect}
    {w w' w'' : Sink} (h : registry.Adds m es w w')
    (h' : registry.Adds (m.performAll es) es' w' w'') : registry.Adds m (es ++ es') w w'' := by
  obtain ⟨new, hevents, hheard⟩ := h
  obtain ⟨new', hevents', hheard'⟩ := h'
  refine ⟨new ++ new', ?_, ?_⟩
  · rw [hevents', hevents, List.append_assoc]
  · rw [List.map_append, hheard, hheard', heardAll_append]

/-- The calls emit the same at all times and into all sinks. -/
structure Timeless (registry : Registry Sink) : Prop where
  emits : registry.handler? name = some handler → ∀ args now c w, ∃ new,
    (handler args now c w).world.events = w.events ++ new ∧
      new.map Event.untimed = registry.heard c.memory name args

theorem timeless_standard : (Registry.standard Sink).Timeless where
  emits {name handler} h args now c w := by
    have hheard : (Registry.standard Sink).heard c.memory name args =
        (handler args 0 { Context.start "" "" with memory := c.memory } .new).world.events.map
          Event.untimed := by
      simp only [heard, h]
    rw [hheard]
    cases answers_of_handler? Sink h with
    | playNote => exact ⟨[_], Sink.events_emit w _, rfl⟩
    | setVolume => exact ⟨[_], Sink.events_emit w _, rfl⟩
    | print => exact ⟨[_], Sink.events_emit w _, rfl⟩
    | rest => exact ⟨[], (List.append_nil _).symm, rfl⟩
    | wait => exact ⟨[], (List.append_nil _).symm, rfl⟩
    | setTempo => exact ⟨[], (List.append_nil _).symm, rfl⟩

end Registry

def Turn.world {σ : Type} : Turn σ → σ
  | .stop result => result.world
  | .next _ w => w

namespace Interpreter

variable {registry : Registry Sink} {r : Routine}

theorem execute_adds (hregistry : registry.Timeless) (a : Action) (now : Float) (c : Context)
    (w : Sink) : registry.Adds c.memory (a.effectsIn registry c.memory) w
      (execute registry a now c w).world := by
  cases a with
  | call name args =>
    cases hhandler : registry.handler? name with
    | none =>
      simp only [execute, Action.effectsIn, hhandler, Option.isSome_none, Bool.false_eq_true,
        ↓reduceIte]
      exact .refl c.memory w
    | some handler =>
      obtain ⟨new, hevents, hheard⟩ := hregistry.emits hhandler (args.map c.resolve) now c w
      have hworld : (execute registry (.call name args) now c w).world =
          (handler (args.map c.resolve) now c w).world := by
        simp only [execute, hhandler]
        split <;> rfl
      rw [hworld]
      refine ⟨new, hevents, ?_⟩
      rw [c.resolve_eq] at hheard
      simp only [Action.effectsIn, hhandler, Option.isSome_some, ↓reduceIte, Action.effects,
        Registry.heardAll, Registry.heardOf, Registry.heardAll_writes, List.append_nil, hheard]
  | _ => exact ⟨[], (List.append_nil _).symm, rfl⟩

theorem turn_adds (hregistry : registry.Timeless) (now : Float) (c : Context) (w : Sink) :
    registry.Adds c.memory (turnEffects registry r [] c) w (turn registry r [] now c w).world := by
  unfold turn turnEffects
  cases fetch? r c with
  | none => exact .refl c.memory w
  | some i =>
    simp only [stopsAt?_nil]
    exact execute_adds hregistry i.action now (advance c i) w

/-- The effects of a turn are all that happens to the memory. -/
theorem memory_of_next (hregistry : registry.Transparent) {now : Float} {c c' : Context}
    {w w' : Sink} (h : turn registry r [] now c w = .next c' w') :
    c'.memory = c.memory.performAll (turnEffects registry r [] c) := by
  cases hi : r.instruction? c.position with
  | none =>
    rw [turn_of_stuck hi] at h
    cases h
  | some i =>
    have hlead := turn_leavesAs hregistry hi now w
    rw [h] at hlead
    have hmemory := congrArg Position.memory hlead
    rw [Position.memory_after] at hmemory
    rw [turnEffects_eq hi]
    exact hmemory

theorem run_adds (htransparent : registry.Transparent) (htimeless : registry.Timeless)
    (now : Float) (budget : Nat) (c : Context) (w : Sink) :
    registry.Adds c.memory (runEffects registry r [] now budget c w) w
      (run registry r [] now budget c w).world := by
  induction budget generalizing c w with
  | zero => exact .refl c.memory w
  | succ budget ih =>
    have hadds := turn_adds (r := r) htimeless now c w
    simp only [run, runEffects]
    cases hturn : turn registry r [] now c w with
    | stop result =>
      rw [hturn] at hadds
      simp only [List.append_nil]
      exact hadds
    | next c' w' =>
      rw [hturn] at hadds
      have hrest := ih c' w'
      rw [memory_of_next htransparent hturn] at hrest
      exact hadds.trans hrest

variable {m : Interpreter Sink} {routine : String}

/-- A slice executes some instructions, and adds to the sink what is heard of their effects. -/
theorem slice_heard (htransparent : m.registry.Transparent) (htimeless : m.registry.Timeless)
    (hr : m.program.routine? routine = some r) (breakpoints : List NodeId) (c : Context)
    (budget : Nat) (now : Float) (w : Sink) :
    let result := m.slice breakpoints routine c budget now w
    ∃ n es, Steps m.registry r n c.position es result.context.position ∧
      m.registry.Adds c.memory es w result.world := by
  intro result
  have hresult : result = run m.registry r breakpoints now budget c w := by
    simp only [result, slice, hr]
  rw [hresult]
  rcases run_breakpoints m.registry r breakpoints now budget c w with
    ⟨hrun, -⟩ | ⟨node, is, c', w', -, hproceeds, -, -, hrun⟩
  · rw [hrun]
    obtain ⟨n, hsteps, -⟩ := steps_run (r := r) htransparent now budget c w
    exact ⟨n, _, hsteps, run_adds htransparent htimeless now budget c w⟩
  · -- the slice without breakpoints that has just the budget for the same instructions
    have hshort : run m.registry r [] now is.length c w = ⟨.ready, c', w'⟩ := hproceeds.run_add 0
    obtain ⟨n, hsteps, -⟩ := steps_run (r := r) htransparent now is.length c w
    have hadds := run_adds (r := r) htransparent htimeless now is.length c w
    rw [hshort] at hsteps hadds
    rw [hrun]
    exact ⟨n, _, hsteps, hadds⟩

/-- Of two executions from one position, one is heard to begin like the other. -/
theorem heard_comparable {p q q' : Position} {es es' : List Effect}
    (h : Steps registry r n p es q) (h' : Steps registry r n' p es' q') :
    registry.heardAll p.memory es <+: registry.heardAll p.memory es' ∨
      registry.heardAll p.memory es' <+: registry.heardAll p.memory es := by
  have hheard : ∀ {es es' : List Effect}, es <+: es' →
      registry.heardAll p.memory es <+: registry.heardAll p.memory es' := by
    rintro es _ ⟨rest, rfl⟩
    rw [Registry.heardAll_append]
    exact List.prefix_append _ _
  rcases Nat.le_total n n' with hle | hle
  · exact .inl (hheard (h.prefix_of_le h' hle))
  · exact .inr (hheard (h'.prefix_of_le h hle))

end Interpreter

end TuneBlocks
