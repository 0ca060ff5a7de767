import TuneBlocks.Proofs.Walk

/-!
# Compiling keeps the meaning

A thread compiled from a chain that is nowhere cut does what the walk of the graph does, in the same
order, however it is sliced. It halts if the walk ends, and then with the memory of the walk
(`compile_meaning`).
-/

namespace TuneBlocks

open Interpreter (Steps)

/-! ## Prefixes -/

section
variable {σ : Type} {registry : Registry σ} {r : Routine} {p : Position} {exit : Label}
  {slack : Nat} {walk : Nat → Walk}

/-- What has been executed is what some walk does, or the beginning of it. -/
theorem exists_walk_of_steps
    (hwalk : ∀ fuel, (walk fuel).Tracked registry r p exit fuel slack)
    (hexit : ∀ m, r.instruction? ⟨exit, 0, m⟩ = none) (h : Steps registry r n p es q) :
    ∃ fuel, es <+: (walk fuel).effects ∧
      (r.instruction? q = none → walk fuel = ⟨es, some q.memory⟩) := by
  -- with this fuel the walk has ended or gone further than the execution
  refine ⟨n + slack + 1, ?_⟩
  obtain ⟨k, q', hsteps, hend⟩ := hwalk (n + slack + 1)
  cases hw : walk (n + slack + 1) with
  | mk effects final =>
    simp only [hw] at hsteps hend ⊢
    cases final with
    | none =>
      simp only at hend
      refine ⟨h.prefix_of_le hsteps (by omega), fun hstuck => ?_⟩
      have hle := h.le_of_stuck hstuck hsteps
      omega
    | some m =>
      simp only at hend
      subst hend
      have hle := hsteps.le_of_stuck (hexit m) h
      refine ⟨h.prefix_of_le hsteps hle, fun hstuck => ?_⟩
      obtain ⟨rfl, rfl⟩ := h.eq_of_stuck hstuck hsteps hle
      rfl

/-- What a walk has done is executed before long, and from then on a walk that has ended is all that
is executed. -/
theorem executed_of_walk {w : Walk} {done : Nat → List Effect} {place : Nat → Position}
    (hwalk : w.Tracked registry r p exit fuel slack)
    (hexit : ∀ m, r.instruction? ⟨exit, 0, m⟩ = none)
    (hdone : ∀ k, ∃ n, Steps registry r n p (done k) (place k) ∧
      (k ≤ n ∨ r.instruction? (place k) = none)) :
    ∃ k₀, ∀ k ≥ k₀, w.effects <+: done k ∧
      ∀ m, w.final = some m → done k = w.effects ∧ place k = ⟨exit, 0, m⟩ := by
  obtain ⟨k₀, q, hsteps, hend⟩ := hwalk
  refine ⟨k₀, fun k hk => ?_⟩
  obtain ⟨n, hdone, hlong⟩ := hdone k
  have hle : k₀ ≤ n := by
    rcases hlong with hlong | hstuck
    · exact Nat.le_trans hk hlong
    · exact hdone.le_of_stuck hstuck hsteps
  refine ⟨hsteps.prefix_of_le hdone hle, fun m hfinal => ?_⟩
  simp only [hfinal] at hend
  subst hend
  exact hsteps.eq_of_stuck (hexit m) hdone hle

end

namespace Interpreter

variable {σ : Type} {m : Interpreter σ} {r : Routine} {routine : String} {c : Context}
  {calls : Nat → SliceCall σ} {walk : Nat → Walk}

/-- The slices of a thread do what a walk does, and the thread halts where the walk ends. -/
structure Realizes (m : Interpreter σ) (routine : String) (c : Context)
    (calls : Nat → SliceCall σ) (walk : Nat → Walk) : Prop where
  /-- The effects are all that happens to the memory of the thread. -/
  memory_eq : ∀ k, (m.contextAfter routine c (SliceCall.first calls k)).memory =
    c.memory.performAll (m.effectsAfter routine c (SliceCall.first calls k))
  /-- What some slices have done, the walk does first. -/
  thread_begins : ∀ k, ∃ fuel,
    m.effectsAfter routine c (SliceCall.first calls k) <+: (walk fuel).effects
  /-- What the walk has done, some slices do first. -/
  walk_begins : ∀ fuel, ∃ k,
    (walk fuel).effects <+: m.effectsAfter routine c (SliceCall.first calls k)
  /-- The walk ends if and only if a slice halts, having done the same and with the same memory. -/
  ends_iff : ∀ es final, (∃ fuel, walk fuel = ⟨es, some final⟩) ↔
    ∃ k, (m.answer routine (m.contextAfter routine c (SliceCall.first calls k)) (calls k)).status =
        .halted ∧
      m.effectsAfter routine c (SliceCall.first calls (k + 1)) = es ∧
      (m.contextAfter routine c (SliceCall.first calls (k + 1))).memory = final

theorem steps_first (hregistry : m.registry.Transparent)
    (hr : m.program.routine? routine = some r) (hcalls : ∀ k, Plain (calls k)) (k : Nat) :
    ∃ n, Steps m.registry r n c.position (m.effectsAfter routine c (SliceCall.first calls k))
        (m.contextAfter routine c (SliceCall.first calls k)).position ∧
      (k ≤ n ∨
        r.instruction? (m.contextAfter routine c (SliceCall.first calls k)).position = none) := by
  have hplain : ∀ call ∈ SliceCall.first calls k, Plain call := by
    intro call hcall
    obtain ⟨i, -, rfl⟩ := List.mem_map.1 hcall
    exact hcalls i
  have hsteps := steps_contextAfter hregistry hr c hplain
  rwa [SliceCall.length_first] at hsteps

/-- A thread whose routine follows a walk realizes it in any slices. -/
theorem realizes_of_tracked (hregistry : m.registry.Transparent)
    (hr : m.program.routine? routine = some r)
    (hwalk : ∀ fuel, (walk fuel).Tracked m.registry r c.position exit fuel slack)
    (hexit : ∀ memory, r.instruction? ⟨exit, 0, memory⟩ = none)
    (hcalls : ∀ k, Plain (calls k)) : m.Realizes routine c calls walk := by
  have hdone := steps_first hregistry hr (c := c) hcalls
  refine ⟨fun k => ?_, fun k => ?_, fun fuel => ?_, fun es final => ⟨?_, ?_⟩⟩
  · obtain ⟨n, hsteps, -⟩ := hdone k
    exact hsteps.memory_eq
  · obtain ⟨n, hsteps, -⟩ := hdone k
    obtain ⟨fuel, hbegins, -⟩ := exists_walk_of_steps hwalk hexit hsteps
    exact ⟨fuel, hbegins⟩
  · obtain ⟨k, hexecuted⟩ := executed_of_walk (hwalk fuel) hexit hdone
    exact ⟨k, (hexecuted k (Nat.le_refl k)).1⟩
  · rintro ⟨fuel, hended⟩
    obtain ⟨k, hexecuted⟩ := executed_of_walk (hwalk fuel) hexit hdone
    have hfinal : (walk fuel).final = some final := congrArg Walk.final hended
    -- by slice `k` the thread is at the exit, so that slice halts and changes nothing
    have hnow := (hexecuted k (Nat.le_refl k)).2 final hfinal
    have hthen := (hexecuted (k + 1) (Nat.le_succ k)).2 final hfinal
    refine ⟨k, ?_, ?_, congrArg Position.memory hthen.2⟩
    · have hstuck := hexit final
      rw [← hnow.2] at hstuck
      rw [answer_of_stuck hr hstuck (hcalls k)]
    · exact hthen.1.trans (congrArg Walk.effects hended)
  · rintro ⟨k, hhalted, rfl, rfl⟩
    obtain ⟨_, -, hend⟩ := steps_answer hregistry hr
      (m.contextAfter routine c (SliceCall.first calls k)) (hcalls k)
    rw [if_pos hhalted, ← contextAfter_concat, ← SliceCall.first_succ] at hend
    obtain ⟨n, hsteps, -⟩ := hdone (k + 1)
    obtain ⟨fuel, -, hended⟩ := exists_walk_of_steps hwalk hexit hsteps
    exact ⟨fuel, hended hend⟩

end Interpreter

/-! ## Cuts -/

namespace Outline

/-- A cut is warned of. -/
theorem uncut_of_warnings {o : Outline} (h : ∀ id, Warning.cyclicChain id ∉ o.warnings) :
    o.Uncut := by
  induction o with
  | ending cut =>
    cases cut with
    | none => rfl
    | some id => exact absurd (List.mem_singleton.2 rfl) (h id)
  | node n body rest hbody hrest =>
    refine ⟨hbody fun id hid => ?_, hrest fun id hid => ?_⟩
    · exact h id (mem_warnings_node.2 (.inr (.inl hid)))
    · exact h id (mem_warnings_node.2 (.inl hid))

end Outline

/-! ## Threads -/

namespace Lowering

variable (σ : Type) [HasSink σ]

theorem thread_tracked {g : Graph} {start : NodeId}
    (h : ∀ id, Warning.cyclicChain id ∉ (compileThread (Registry.standard σ).rules g start).2)
    (fuel : Nat) (m : Memory) :
    (g.walk fuel (.chain (some start)) m).Tracked (Registry.standard σ)
      (compileThread (Registry.standard σ).rules g start).1
      ⟨(compileThread (Registry.standard σ).rules g start).1.entry, 0, m⟩ threadEnd fuel
      (threadOutline g start).weight := by
  rw [compileThread_warnings] at h
  rw [compileThread_entry]
  refine Graph.walk_tracked σ g _ fuel (.chain ?_ fun b hb => ?_) m
  · exact Graph.follows_outline [] (some start) (Outline.uncut_of_warnings h)
  · exact compileThread_block?_of_mem σ (List.mem_cons_of_mem _ hb)

theorem instruction?_threadEnd (g : Graph) (start : NodeId) (m : Memory) :
    (compileThread (Registry.standard σ).rules g start).1.instruction? ⟨threadEnd, 0, m⟩ = none :=
  Interpreter.instruction?_of_block m (compileThread_block?_of_mem σ List.mem_cons_self) 0

/-- A program compiled with the standard blocks, to be run with them. -/
def machineOf (g : Graph) (starts : List Node) : Interpreter σ :=
  ⟨(compile (Registry.standard σ).rules g starts).program, Registry.standard σ⟩

/-- **A compiled thread does what the walk of its graph does**, whatever memory it starts with and
however it is sliced. -/
theorem compile_meaning (g : Graph) (starts : List Node) (start : Node) (hstart : start ∈ starts)
    (hcycle : ∀ id,
      Warning.cyclicChain id ∉ (compileThread (Registry.standard σ).rules g start.id).2)
    (c : Context)
    (hblock : c.block = (compileThread (Registry.standard σ).rules g start.id).1.entry)
    (hip : c.ip = 0) (calls : Nat → SliceCall σ)
    (hcalls : ∀ k, (calls k).breakpoints = [] ∧ 1 ≤ (calls k).budget) :
    (machineOf σ g starts).Realizes (routineName start.id) c calls
      (fun fuel => g.walk fuel (.chain (some start.id)) c.memory) := by
  have hr : (machineOf σ g starts).program.routine? (routineName start.id) =
      some (compileThread (Registry.standard σ).rules g start.id).1 :=
    (routine?_compile_iff _ g starts).2 ⟨start, hstart, rfl, rfl⟩
  have hposition : c.position =
      ⟨(compileThread (Registry.standard σ).rules g start.id).1.entry, 0, c.memory⟩ :=
    Position.ext hblock hip rfl
  have hwalk := fun fuel => thread_tracked σ hcycle fuel c.memory
  simp only [← hposition] at hwalk
  exact Interpreter.realizes_of_tracked (Registry.transparent_standard σ) hr hwalk
    (instruction?_threadEnd σ g start.id) hcalls

/-- A note played twice, then a change of tempo; a node of no known type and a link to no node are
gone around. -/
def playTwice : Graph :=
  ⟨[⟨"s", "start", ∅, some "twice", none⟩, ⟨"twice", "repeat", ∅, some "slow", some "play"⟩,
      ⟨"play", "play_note", ∅, some "odd", none⟩, ⟨"odd", "whistle", ∅, none, none⟩,
      ⟨"slow", "set_tempo", ∅, some "nowhere", none⟩], by decide⟩

theorem compile_meaning_playTwice :
    (∀ id, Warning.cyclicChain id ∉
        (compileThread (Registry.standard Sink).rules playTwice "s").2) ∧
      (machineOf Sink playTwice playTwice.nodes).Realizes "thread_s"
        (.start "s" (compileThread (Registry.standard Sink).rules playTwice "s").1.entry)
        (fun k => ⟨[], k + 1, 10, .new⟩)
        (fun fuel => playTwice.walk fuel (.chain (some "s")) .empty) := by
  have hwarnings : (compileThread (Registry.standard Sink).rules playTwice "s").2 =
      [.unknownType "odd" "whistle"] := by decide +kernel
  have hcycle : ∀ id, Warning.cyclicChain id ∉
      (compileThread (Registry.standard Sink).rules playTwice "s").2 := by
    rw [hwarnings]
    simp
  exact ⟨hcycle, compile_meaning Sink playTwice playTwice.nodes _ List.mem_cons_self hcycle
    (.start "s" _) rfl rfl _ fun k => ⟨rfl, Nat.le_add_left 1 k⟩⟩

end Lowering

end TuneBlocks
