import Mathlib.Data.List.Chain
import TuneBlocks.Proofs.Dispatches

/-!
# Where a thread has been

The trail of a thread is the list of the positions at which it executed an instruction, with the one
where it is. Whatever the slices of the thread are, breakpoints included, each position of the trail
follows from the one before it (`trail_isChain`), and every slice without breakpoints makes the
trail longer until the thread comes to its end (`length_dispatchesAfter`).
-/

namespace TuneBlocks

/-- The position is at the first instruction of a block. -/
def Position.Begins (p : Position) (label : Label) : Prop := p.block = label ∧ p.ip = 0

instance (p : Position) (label : Label) : Decidable (p.Begins label) :=
  inferInstanceAs (Decidable (_ ∧ _))

/-- One executed instruction leads from one position to the next. -/
def Routine.Leads {σ : Type} (registry : Registry σ) (r : Routine) (p q : Position) : Prop :=
  ∃ i, r.instruction? p = some i ∧ q = p.after registry i.action

theorem Routine.Leads.unique {σ : Type} {registry : Registry σ} {r : Routine} {p q q' : Position}
    (h : r.Leads registry p q) (h' : r.Leads registry p q') : q = q' := by
  obtain ⟨i, hi, rfl⟩ := h
  obtain ⟨i', hi', rfl⟩ := h'
  rw [Option.some.inj (hi.symm.trans hi')]

theorem Context.position_eq_of_unparked {c c' : Context} (h : c.unparked = c'.unparked) :
    c.position = c'.position := by
  obtain ⟨parked, rfl⟩ := Context.unparked_eq_iff.1 h
  rfl

namespace Interpreter

variable {σ : Type} {registry : Registry σ} {r : Routine} {m : Interpreter σ} {routine : String}

/-- The positions of a thread along a sequence of slices. -/
def trail (m : Interpreter σ) (routine : String) (c : Context) (calls : List (SliceCall σ)) :
    List Position :=
  (m.dispatchesAfter routine c calls).map (fun d => d.before.position) ++
    [(m.contextAfter routine c calls).position]

theorem position_ending_execute (hregistry : registry.Transparent) (a : Action) (now : Float)
    {p : Position} {c : Context} (hc : c.position = { p with ip := p.ip + 1 }) (w : σ) :
    (execute registry a now c w).ending.context.position = p.after registry a :=
  (leavesAs_iff.1 (execute_leavesAs hregistry a now hc w)).2

/-- Linked dispatches are at positions that follow from each other. -/
theorem Linked.isChain (hregistry : registry.Transparent) {c c' : Context} {ds : List Dispatch}
    (h : Linked registry r c ds c') :
    (ds.map (fun d => d.before.position) ++ [c'.position]).IsChain (r.Leads registry) ∧
      (ds.map (fun d => d.before.position) ++ [c'.position]).head? = some c.position := by
  induction h with
  | nil hsame =>
    rw [Context.position_eq_of_unparked hsame]
    exact ⟨.singleton _, rfl⟩
  | @cons w ds c' c d now hbefore hfetch hafter _ ih =>
    obtain ⟨hchain, hhead⟩ := ih
    rw [Context.position_eq_of_unparked hbefore]
    refine ⟨?_, rfl⟩
    rw [List.map_cons, List.cons_append, List.isChain_cons]
    refine ⟨fun q hq => ⟨d.instruction, hfetch, ?_⟩, hchain⟩
    rw [hhead, Option.mem_some_iff] at hq
    rw [← hq, hafter]
    exact position_ending_execute hregistry _ now rfl w

/-- **The trail of a thread follows the code**, however the thread is sliced. -/
theorem trail_isChain (hregistry : m.registry.Transparent)
    (hr : m.program.routine? routine = some r) (c : Context) (calls : List (SliceCall σ)) :
    (m.trail routine c calls).IsChain (r.Leads m.registry) ∧
      (m.trail routine c calls).head? = some c.position :=
  (linked_dispatchesAfter hr c calls).isChain hregistry

/-- A thread without an instruction stays where it is. -/
theorem contextAfter_of_stuck (hr : m.program.routine? routine = some r) {c : Context}
    (hstuck : r.instruction? c.position = none) {calls : List (SliceCall σ)}
    (hcalls : ∀ call ∈ calls, Plain call) : m.contextAfter routine c calls = c := by
  induction calls with
  | nil => rfl
  | cons call calls ih =>
    rw [contextAfter, List.foldl_cons, answer_of_stuck hr hstuck (hcalls call List.mem_cons_self)]
    exact ih fun other hother => hcalls other (List.mem_cons_of_mem _ hother)

theorem length_answerDispatches (hr : m.program.routine? routine = some r) {c : Context}
    {i : Instruction} (hi : r.instruction? c.position = some i) {call : SliceCall σ}
    (hcall : Plain call) : 1 ≤ (m.answerDispatches routine c call).length := by
  obtain ⟨hbreakpoints, hbudget⟩ := hcall
  obtain ⟨budget, hbudget⟩ := Nat.exists_eq_add_of_le' hbudget
  have hfetch : fetch? r c = some i := hi
  rw [answerDispatches_eq hr, hbreakpoints, hbudget, dispatches, due?_nil, hfetch,
    List.length_append]
  exact Nat.le_add_right 1 _

/-- Slices without breakpoints execute at least as many instructions as there are slices, unless the
thread comes to a position without one. -/
theorem length_dispatchesAfter (hr : m.program.routine? routine = some r) (c : Context)
    {calls : List (SliceCall σ)} (hcalls : ∀ call ∈ calls, Plain call) :
    calls.length ≤ (m.dispatchesAfter routine c calls).length ∨
      r.instruction? (m.contextAfter routine c calls).position = none := by
  induction calls generalizing c with
  | nil => exact .inl (Nat.zero_le _)
  | cons call calls ih =>
    cases hi : r.instruction? c.position with
    | none =>
      rw [contextAfter_of_stuck hr hi hcalls]
      exact .inr hi
    | some i =>
      have hfirst := length_answerDispatches hr hi (hcalls call List.mem_cons_self)
      rcases ih (m.answer routine c call).context
        fun other hother => hcalls other (List.mem_cons_of_mem _ hother) with hrest | hstuck
      · left
        rw [dispatchesAfter, List.length_append, List.length_cons]
        omega
      · exact .inr hstuck

end Interpreter

end TuneBlocks
