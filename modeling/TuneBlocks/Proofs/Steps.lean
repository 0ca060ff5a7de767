import TuneBlocks.Proofs.Effects

/-!
# Execution without slices

Without breakpoints the slicing of a thread does not matter. `Steps` is its execution one
instruction at a time, as a relation between positions, without budget, clock, world and thread. The
relation is deterministic (`Steps.prefix_of_le`, `Steps.eq_of_stuck`). Slices follow it
(`steps_contextAfter`), as long as the calls change nothing of a thread that the effects do not show
(`Registry.Transparent`). The calls of the standard blocks do not (`transparent_standard`).
-/

namespace TuneBlocks

/-- What the execution of a thread depends on. -/
@[ext]
structure Position where
  block : Label
  ip : Nat
  memory : Memory

def Context.position (c : Context) : Position := ⟨c.block, c.ip, c.memory⟩

/-- The instruction at a position. -/
def Routine.instruction? (r : Routine) (p : Position) : Option Instruction :=
  (r.block? p.block).bind fun b => b.instructions[p.ip]?

/-- Where the execution of an action leads. -/
def Position.after {σ : Type} (registry : Registry σ) (p : Position) (a : Action) : Position :=
  match a with
  | .jump target => ⟨target, 0, p.memory⟩
  | .branch op left right ifTrue ifFalse =>
    ⟨if (p.memory.lookup left).compare op (p.memory.resolve right) then ifTrue else ifFalse, 0,
      p.memory⟩
  | _ => ⟨p.block, p.ip + 1, p.memory.performAll (a.effectsIn registry p.memory)⟩

theorem Position.memory_after {σ : Type} (registry : Registry σ) (p : Position) (a : Action) :
    (p.after registry a).memory = p.memory.performAll (a.effectsIn registry p.memory) := by
  cases a <;> rfl

/-- The calls change a thread by what they are known to write, and do not halt it. -/
structure Registry.Transparent {σ : Type} (registry : Registry σ) : Prop where
  context : registry.handler? name = some handler → ∀ args now c w,
    (handler args now c w).context =
      { c with memory := c.memory.performAll (Music.writes name args) }
  running : registry.handler? name = some handler → ∀ args now c w,
    (handler args now c w).status ≠ some .halted

namespace Interpreter

variable {σ : Type} {registry : Registry σ} {r : Routine}

/-- A number of instructions executed from one position to another, with their effects. -/
inductive Steps (registry : Registry σ) (r : Routine) :
    Nat → Position → List Effect → Position → Prop
  | refl : Steps registry r 0 p [] p
  | head : r.instruction? p = some i → Steps registry r n (p.after registry i.action) es q →
      Steps registry r (n + 1) p (i.action.effectsIn registry p.memory ++ es) q

namespace Steps

theorem single (h : r.instruction? p = some i) :
    Steps registry r 1 p (i.action.effectsIn registry p.memory) (p.after registry i.action) := by
  have hstep : Steps registry r 1 p _ _ := head h refl
  rwa [List.append_nil] at hstep

theorem eq_of_zero (h : Steps registry r 0 p es q) : es = [] ∧ q = p := by
  cases h
  exact ⟨rfl, rfl⟩

theorem trans (h : Steps registry r m p es q) (h' : Steps registry r n q es' q') :
    Steps registry r (m + n) p (es ++ es') q' := by
  induction h with
  | refl =>
    rw [Nat.zero_add]
    exact h'
  | head hi _ ih =>
    rw [List.append_assoc, Nat.add_right_comm]
    exact head hi (ih h')

/-- The effects are all that happens to the memory. -/
theorem memory_eq (h : Steps registry r n p es q) : q.memory = p.memory.performAll es := by
  induction h with
  | refl => rfl
  | head _ _ ih => rw [ih, Position.memory_after, Memory.performAll_append]

/-- The longer of two executions from one position continues the shorter one. -/
theorem continues (h : Steps registry r m p es q) (h' : Steps registry r (m + n) p es' q') :
    ∃ rest, es' = es ++ rest ∧ Steps registry r n q rest q' := by
  induction h generalizing es' with
  | refl =>
    rw [Nat.zero_add] at h'
    exact ⟨es', rfl, h'⟩
  | head hi _ ih =>
    rw [Nat.add_right_comm] at h'
    cases h' with
    | head hi' htail =>
      obtain rfl := Option.some.inj (hi.symm.trans hi')
      obtain ⟨rest, rfl, hrest⟩ := ih htail
      exact ⟨rest, (List.append_assoc ..).symm, hrest⟩

theorem prefix_of_le (h : Steps registry r m p es q) (h' : Steps registry r n p es' q')
    (hle : m ≤ n) : es <+: es' := by
  obtain ⟨k, rfl⟩ := Nat.exists_eq_add_of_le hle
  obtain ⟨rest, rfl, -⟩ := h.continues h'
  exact List.prefix_append es rest

/-- No execution goes past a position without an instruction. -/
theorem le_of_stuck (h : Steps registry r m p es q) (hstuck : r.instruction? q = none)
    (h' : Steps registry r n p es' q') : n ≤ m := by
  rcases Nat.lt_or_ge m n with hlt | hle
  · obtain ⟨k, rfl⟩ := Nat.exists_eq_add_of_le hlt
    rw [Nat.succ_add_eq_add_succ] at h'
    obtain ⟨rest, -, hrest⟩ := h.continues h'
    cases hrest with
    | head hi _ =>
      rw [hstuck] at hi
      cases hi
  · exact hle

/-- An execution that cannot go on is all there is. -/
theorem eq_of_stuck (h : Steps registry r m p es q) (hstuck : r.instruction? q = none)
    (h' : Steps registry r n p es' q') (hle : m ≤ n) : es' = es ∧ q' = q := by
  obtain rfl := Nat.le_antisymm hle (h.le_of_stuck hstuck h')
  obtain ⟨rest, rfl, hrest⟩ := h.continues (n := 0) h'
  obtain ⟨rfl, rfl⟩ := hrest.eq_of_zero
  exact ⟨List.append_nil es, rfl⟩

end Steps

/-! ## Turns -/

theorem execute_leavesAs (hregistry : registry.Transparent) (a : Action) (now : Float)
    {p : Position} {c : Context} (hc : c.position = { p with ip := p.ip + 1 }) (w : σ) :
    LeavesAs (·.position = p.after registry a) (execute registry a now c w) := by
  rcases p with ⟨block, ip, memory⟩
  simp only [Context.position, Position.mk.injEq] at hc
  obtain ⟨rfl, hip, rfl⟩ := hc
  have hresolve := c.resolve_eq
  cases a with
  | declare name v =>
    simp only [execute, hresolve]
    exact Position.ext rfl hip rfl
  | assign name v =>
    simp only [execute, hresolve]
    exact Position.ext rfl hip rfl
  | add name amount =>
    simp only [execute, hresolve]
    exact Position.ext rfl hip rfl
  | jump target => exact rfl
  | branch op left right ifTrue ifFalse =>
    simp only [execute, hresolve]
    exact rfl
  | call name args =>
    cases hhandler : registry.handler? name with
    | none =>
      simp only [execute, hhandler, Position.after, Action.effectsIn]
      exact Position.ext rfl hip rfl
    | some handler =>
      apply leavesAs_call hhandler
      · rw [hregistry.context hhandler, hresolve]
        simp only [Position.after, Action.effectsIn, hhandler]
        exact Position.ext rfl hip rfl
      · exact hregistry.running hhandler _ now c w
  | yield => exact ⟨Status.noConfusion, Position.ext rfl hip rfl⟩

theorem stopsAt?_nil (c : Context) (i : Instruction) : stopsAt? [] c i = none := by
  cases hsource : i.source with
  | none => simp only [stopsAt?, hsource, Option.filter_none]
  | some node => simp [stopsAt?, hsource]

theorem turn_leavesAs (hregistry : registry.Transparent) {c : Context} {i : Instruction}
    (hi : r.instruction? c.position = some i) (now : Float) (w : σ) :
    LeavesAs (·.position = c.position.after registry i.action)
      (turn registry r [] now c w) := by
  have hfetch : fetch? r c = some i := hi
  simp only [turn, hfetch, stopsAt?_nil]
  exact execute_leavesAs hregistry i.action now rfl w

theorem turnEffects_eq {c : Context} {i : Instruction}
    (hi : r.instruction? c.position = some i) :
    turnEffects registry r [] c = i.action.effectsIn registry c.memory := by
  have hfetch : fetch? r c = some i := hi
  simp only [turnEffects, hfetch, stopsAt?_nil]

theorem turn_of_stuck {c : Context} (hstuck : r.instruction? c.position = none)
    (breakpoints : List NodeId) (now : Float) (w : σ) :
    turn registry r breakpoints now c w = .stop ⟨.halted, c, w⟩ := by
  have hfetch : fetch? r c = none := hstuck
  simp only [turn, hfetch]

/-! ## Slices -/

theorem run_of_stuck {c : Context} (hstuck : r.instruction? c.position = none)
    (breakpoints : List NodeId) (now : Float) {budget : Nat} (hbudget : 1 ≤ budget) (w : σ) :
    run registry r breakpoints now budget c w = ⟨.halted, c, w⟩ := by
  obtain ⟨budget, rfl⟩ := Nat.exists_eq_add_of_le' hbudget
  simp only [run, turn_of_stuck hstuck]

/-- A slice executes instructions, at least one unless it halts, and halts only where there is
none. -/
theorem steps_run (hregistry : registry.Transparent) (now : Float) (budget : Nat) (c : Context)
    (w : σ) :
    ∃ n, Steps registry r n c.position (runEffects registry r [] now budget c w)
        (run registry r [] now budget c w).context.position ∧
      if (run registry r [] now budget c w).status = .halted then
        r.instruction? (run registry r [] now budget c w).context.position = none
      else min 1 budget ≤ n := by
  induction budget generalizing c w with
  | zero => exact ⟨0, .refl, Nat.le_refl 0⟩
  | succ budget ih =>
    cases hi : r.instruction? c.position with
    | none =>
      have hfetch : fetch? r c = none := hi
      simp only [run, runEffects, turnEffects, hfetch, turn_of_stuck hi]
      exact ⟨0, .refl, by simp only [↓reduceIte, hi]⟩
    | some i =>
      have hlead := turn_leavesAs hregistry hi now w
      cases hturn : turn registry r [] now c w with
      | stop result =>
        rw [hturn] at hlead
        obtain ⟨hstatus, hposition⟩ := hlead
        simp only [run, runEffects, turnEffects_eq hi, hturn, List.append_nil, hposition,
          if_neg hstatus]
        exact ⟨1, .single hi, Nat.min_le_left ..⟩
      | next c' w' =>
        rw [hturn] at hlead
        obtain ⟨n, hsteps, hend⟩ := ih c' w'
        change c'.position = _ at hlead
        rw [hlead] at hsteps
        simp only [run, runEffects, turnEffects_eq hi, hturn]
        refine ⟨n + 1, .head hi hsteps, ?_⟩
        split
        · rwa [if_pos ‹_›] at hend
        · omega

/-- A call without breakpoints and with a budget. -/
def Plain (call : SliceCall σ) : Prop := call.breakpoints = [] ∧ 1 ≤ call.budget

variable {m : Interpreter σ} {routine : String}

theorem answer_of_stuck (hr : m.program.routine? routine = some r) {c : Context}
    (hstuck : r.instruction? c.position = none) {call : SliceCall σ} (hcall : Plain call) :
    m.answer routine c call = ⟨.halted, c, call.world⟩ := by
  rw [answer_eq_run hr]
  exact run_of_stuck hstuck call.breakpoints call.now hcall.2 call.world

theorem steps_answer (hregistry : m.registry.Transparent)
    (hr : m.program.routine? routine = some r) (c : Context) {call : SliceCall σ}
    (hcall : Plain call) :
    ∃ n, Steps m.registry r n c.position (m.answerEffects routine c call)
        (m.answer routine c call).context.position ∧
      if (m.answer routine c call).status = .halted then
        r.instruction? (m.answer routine c call).context.position = none
      else 1 ≤ n := by
  obtain ⟨hbreakpoints, hbudget⟩ := hcall
  have hsteps := steps_run (r := r) hregistry call.now call.budget c call.world
  rw [Nat.min_eq_left hbudget] at hsteps
  simp only [answer_eq_run hr, answerEffects, hr, hbreakpoints]
  exact hsteps

/-- Slices execute instructions, at least as many as there are slices unless they come to a position
without one. -/
theorem steps_contextAfter (hregistry : m.registry.Transparent)
    (hr : m.program.routine? routine = some r) (c : Context) {calls : List (SliceCall σ)}
    (hcalls : ∀ call ∈ calls, Plain call) :
    ∃ n, Steps m.registry r n c.position (m.effectsAfter routine c calls)
        (m.contextAfter routine c calls).position ∧
      (calls.length ≤ n ∨ r.instruction? (m.contextAfter routine c calls).position = none) := by
  induction calls generalizing c with
  | nil => exact ⟨0, .refl, .inl (Nat.le_refl 0)⟩
  | cons call calls ih =>
    obtain ⟨n, hfirst, hend⟩ := steps_answer hregistry hr c (hcalls call List.mem_cons_self)
    obtain ⟨k, hrest, hlength⟩ := ih (m.answer routine c call).context
      fun other hother => hcalls other (List.mem_cons_of_mem _ hother)
    refine ⟨n + k, hfirst.trans hrest, ?_⟩
    split at hend
    · -- a halted thread stays where it is
      obtain rfl := Nat.le_zero.1 (Steps.refl.le_of_stuck hend hrest)
      have hposition := hrest.eq_of_zero.2
      rw [← hposition] at hend
      exact .inr hend
    · rcases hlength with hlength | hstuck
      · exact .inl (by rw [List.length_cons]; omega)
      · exact .inr hstuck

end Interpreter

/-! ## The standard blocks -/

/-- The calls of the music blocks, with what answers them. -/
inductive Music.Answers {σ : Type} [HasSink σ] : String → Handler σ → Prop
  | playNote : Answers "play_note" playNote
  | rest : Answers "rest" rest
  | wait : Answers "wait" wait
  | setTempo : Answers "set_tempo" setTempo
  | setVolume : Answers "set_volume" setVolume
  | print : Answers "print" print

namespace Registry

variable (σ : Type) [HasSink σ]

theorem handler?_standard (name : String) : (Registry.standard σ).handler? name =
    (if name = "print" then some Music.print
    else if name = "set_volume" then some Music.setVolume
    else if name = "set_tempo" then some Music.setTempo
    else if name = "wait" then some Music.wait
    else if name = "rest" then some Music.rest
    else if name = "play_note" then some Music.playNote
    else none) := by
  simp only [Registry.handler?, Registry.standard, Registry.block?_addPlugin, Core.plugin,
    Music.plugin, Music.callBlock, List.foldl_cons, List.foldl_nil, Registry.block?_addBlock,
    Registry.block?_empty, apply_ite (Option.bind · BlockDef.handler), Option.bind_some,
    Option.bind_none, ite_self]

theorem answers_of_handler? {name : String} {handler : Handler σ}
    (h : (Registry.standard σ).handler? name = some handler) : Music.Answers name handler := by
  rw [handler?_standard] at h
  split at h
  · subst name; cases h; exact .print
  split at h
  · subst name; cases h; exact .setVolume
  split at h
  · subst name; cases h; exact .setTempo
  split at h
  · subst name; cases h; exact .wait
  split at h
  · subst name; cases h; exact .rest
  split at h
  · subst name; cases h; exact .playNote
  · cases h

theorem transparent_standard : (Registry.standard σ).Transparent where
  context h args now c w := by cases answers_of_handler? σ h <;> rfl
  running h args now c w := by
    cases answers_of_handler? σ h <;> intro hstatus <;> cases hstatus

end Registry

end TuneBlocks
