import TuneBlocks.Proofs.Dispatches
import TuneBlocks.Proofs.Reachability

/-!
# Execution stays with the reachable blocks

The search for reachable blocks reads the targets of all instructions, and execution goes where
single instructions jump. An executed instruction leaves a thread in its block or brings it to one
of the targets (`arrives_ending`), so a thread that starts at the entry never leaves the paths of
the search (`Linked.onPath`). The routine need not pass the check: it may have jumps that lead
nowhere, instructions behind a jump, and blocks stored under keys that are not their labels.
-/

namespace TuneBlocks

/-- If the thread is in a block of the routine, the search finds that block. -/
def Routine.OnPath (r : Routine) (c : Context) : Prop :=
  c.block ∈ r.blocks.keys → c.block ∈ r.reachable

namespace Interpreter

variable {σ : Type} {registry : Registry σ} {r : Routine} {c c' : Context} {i : Instruction}

theorem exists_block_of_fetch (h : fetch? r c = some i) :
    ∃ b, r.block? c.block = some b ∧ b.instructions[c.ip]? = some i :=
  Option.bind_eq_some_iff.1 h

theorem onPath_start (r : Routine) (thread : String) : r.OnPath (.start thread r.entry) :=
  fun hentry => Routine.mem_reachable_iff.2 ⟨0, .entry hentry⟩

theorem mem_reachable_of_fetch (hc : r.OnPath c) (h : fetch? r c = some i) :
    c.block ∈ r.reachable := by
  obtain ⟨b, hb, -⟩ := exists_block_of_fetch h
  exact hc (List.mem_map_of_mem (Keyed.get?_eq_some_iff.1 hb))

/-- One executed instruction keeps a thread on the paths of the search. -/
theorem onPath_of_arrives (hc : r.OnPath c) (hfetch : fetch? r c = some i)
    (h : Arrives i.action (advance c i) c') : r.OnPath c' := by
  obtain ⟨b, hb, hi⟩ := exists_block_of_fetch hfetch
  obtain ⟨n, hpath⟩ := Routine.mem_reachable_iff.1 (mem_reachable_of_fetch hc hfetch)
  unfold Arrives at h
  split at h
  · -- the target may be missing, and then the thread is in no block
    intro hkey
    have htarget : r.Targets c.block c'.block := ⟨hkey, b, hb, i, List.mem_of_getElem? hi, h.1⟩
    exact Routine.mem_reachable_iff.2 ⟨n + 1, .step hpath htarget⟩
  · have hsame : c'.block = c.block := h.1
    unfold Routine.OnPath
    rwa [hsame]

/-- **Linked dispatches stay on the paths of the search.** -/
theorem Linked.onPath (hregistry : registry.LeavesInPlace) {ds : List Dispatch}
    (h : Linked registry r c ds c') (hc : r.OnPath c) :
    r.OnPath c' ∧ ∀ d ∈ ds, r.OnPath d.before ∧ fetch? r d.before = some d.instruction := by
  induction h with
  | nil hsame =>
    have hblock := congrArg Context.block hsame
    refine ⟨fun hkey => ?_, fun d hd => nomatch hd⟩
    exact hblock ▸ hc (hblock ▸ hkey)
  | @cons w ds c' c d now hbefore hfetch hafter _ ih =>
    have hblock := congrArg Context.block hbefore
    have hd : r.OnPath d.before := fun hkey => hblock ▸ hc (hblock ▸ hkey)
    have harrives := arrives_ending hregistry d.instruction.action now
      (advance d.before d.instruction) w
    rw [← hafter] at harrives
    obtain ⟨hend, hrest⟩ := ih (onPath_of_arrives hd hfetch harrives)
    exact ⟨hend, List.forall_mem_cons.2 ⟨⟨hd, hfetch⟩, hrest⟩⟩

/-- **Unreachable blocks never run.** Whatever the slices of a thread are that starts at the entry
of a routine, each instruction it executes is one of the block under a key that the search lists.
So the thread neither executes an instruction of an unreachable block nor ever stands in one. -/
theorem unreachable_never_runs (m : Interpreter σ) (hregistry : m.registry.LeavesInPlace)
    (r : Routine) (hr : m.program.routine? r.name = some r) (thread : String)
    (calls : List (SliceCall σ)) :
    let c := Context.start thread r.entry
    (∀ d ∈ m.dispatchesAfter r.name c calls, d.before.block ∈ r.reachable ∧
      ∃ b, r.block? d.before.block = some b ∧ b.instructions[d.before.ip]? = some d.instruction) ∧
    ∀ key ∈ r.unreachable, (∀ d ∈ m.dispatchesAfter r.name c calls, d.before.block ≠ key) ∧
      (m.contextAfter r.name c calls).block ≠ key := by
  intro c
  obtain ⟨hend, hdispatches⟩ :=
    (linked_dispatchesAfter hr c calls).onPath hregistry (onPath_start r thread)
  have hreached : ∀ d ∈ m.dispatchesAfter r.name c calls, d.before.block ∈ r.reachable :=
    fun d hd => mem_reachable_of_fetch (hdispatches d hd).1 (hdispatches d hd).2
  refine ⟨fun d hd => ⟨hreached d hd, exists_block_of_fetch (hdispatches d hd).2⟩, ?_⟩
  intro key hkey
  obtain ⟨hstored, hunreached⟩ := Routine.mem_unreachable_iff.1 hkey
  refine ⟨fun d hd => ?_, ?_⟩
  · rintro rfl
    exact hunreached (hreached d hd)
  · rintro rfl
    exact hunreached (hend hstored)

/-- A routine that does not pass the check. Its first block goes on behind a jump and may jump to
nowhere, and two blocks are stored under each other's labels. -/
def patchwork : Routine :=
  ⟨"main", "first", .ofList [
    ("first", ⟨"first", [(Action.call "play_note" []).tagged "note",
      (Action.branch .lt "n" (.literal (.number 1)) "odd" "nowhere").untagged,
      (Action.jump "behind").untagged]⟩),
    ("odd", ⟨"even", [(Action.add "n" (.literal (.number 1))).untagged,
      (Action.jump "first").untagged]⟩),
    ("even", ⟨"odd", [Action.untagged .yield]⟩),
    ("behind", ⟨"behind", []⟩)]⟩

/-- The thread goes through two of the blocks and ends up nowhere. The block behind the jump is
found by the search, although no thread gets there. -/
theorem unreachable_never_runs_patchwork :
    let m : Interpreter Sink := ⟨Program.empty.addRoutine patchwork, .standard Sink⟩
    let c := Context.start "t" "first"
    let calls : List (SliceCall Sink) := [⟨[], 10, 0, .new⟩, ⟨["note"], 3, 500, .new⟩,
      ⟨[], 2, 500, .new⟩, ⟨[], 10, 1000, .new⟩]
    m.program.violations ≠ [] ∧ patchwork.reachable = ["first", "odd", "behind"] ∧
      patchwork.unreachable = ["even"] ∧
      (m.dispatchesAfter "main" c calls).map (·.before.block) =
        ["first", "first", "odd", "odd", "first", "first"] ∧
      (m.contextAfter "main" c calls).block = "nowhere" ∧
      ∀ d ∈ m.dispatchesAfter "main" c calls, d.before.block ≠ "even" := by
  intro m c calls
  have hregistry := (Registry.transparent_standard Sink).keepsPlace.toLeavesInPlace
  have hunreachable : patchwork.unreachable = ["even"] := by decide +kernel
  have hnever := (unreachable_never_runs m hregistry patchwork rfl "t" calls).2 "even"
    (hunreachable ▸ List.mem_singleton.2 rfl)
  exact ⟨by decide, by decide +kernel, hunreachable, by decide +kernel, by decide +kernel, hnever.1⟩

end Interpreter

end TuneBlocks
