import Mathlib.Data.List.Nodup
import TuneBlocks.Proofs.Conservation

/-!
# Following one thread

Nothing happens to a thread between its slices: each finds the thread as the one before left it
(`Follows`). So it is with every thread of a roster at any time (`Roster.Tracks`).
-/

namespace TuneBlocks

variable {σ : Type} {ex : Executor σ}

/-- The slice ended as the executor has it. -/
def Grant.IsOf (ex : Executor σ) (g : Grant σ) : Prop :=
  g.result = ex.slice g.thread.id g.thread.routine g.thread.context g.budget g.now g.world

/-- A thread goes through some slices, one after the other. -/
inductive Follows (ex : Executor σ) (t : Thread) : List (Grant σ) → Thread → Prop
  | nil : Follows ex t [] t
  | concat {gs : List (Grant σ)} {g : Grant σ} : Follows ex t gs g.thread → g.IsOf ex →
      Follows ex t (gs ++ [g]) g.after

theorem Follows.id_eq {t t' : Thread} {gs : List (Grant σ)} (h : Follows ex t gs t') :
    t'.id = t.id ∧ t'.routine = t.routine ∧ ∀ g ∈ gs, g.thread.id = t.id := by
  induction h with
  | nil => exact ⟨rfl, rfl, fun _ hg => absurd hg List.not_mem_nil⟩
  | concat _ _ ih =>
    obtain ⟨hid, hroutine, hall⟩ := ih
    refine ⟨hid, hroutine, fun g hg => ?_⟩
    rcases List.mem_append.1 hg with hg | hg
    · exact hall g hg
    · rw [List.mem_singleton.1 hg]
      exact hid

namespace Roster

variable {x : Roster σ} {n : Nat} {t : Thread}

/-- The slices of the thread with a number. -/
def slicesOf (x : Roster σ) (n : Nat) : List (Grant σ) := x.log.filter (·.number == n)

/-- Every thread has come to where it is by its slices. -/
structure Tracks (ex : Executor σ) (x : Roster σ) : Prop where
  known : ∀ g ∈ x.log, g.number < x.enrolled.length
  follows : ∀ m ∈ x.everyone, ∃ t, (m.1, t) ∈ x.enrolled ∧ Follows ex t (x.slicesOf m.1) m.2

theorem Tracks.schedule (h : x.Tracks ex) (id routine entry) :
    (x.schedule id routine entry).Tracks ex := by
  refine ⟨fun g hg => ?_, fun m hm => ?_⟩
  · have hknown := h.known g hg
    simp only [Roster.schedule, List.length_append, List.length_singleton]
    omega
  · have hcases : m ∈ x.everyone ∨
        m = (x.enrolled.length, ⟨id, routine, .start id entry⟩) := by
      simp only [everyone, members, Roster.schedule, List.mem_append, List.mem_singleton] at hm ⊢
      tauto
    rcases hcases with hm | rfl
    · obtain ⟨t, ht, hfollows⟩ := h.follows m hm
      exact ⟨t, List.mem_append_left _ ht, hfollows⟩
    · -- the number is new, so there are no slices with it
      have hnone : x.slicesOf x.enrolled.length = [] := by
        refine List.filter_eq_nil_iff.2 fun g hg hnumber => ?_
        have hknown := h.known g hg
        rw [beq_iff_eq] at hnumber
        omega
      refine ⟨_, List.mem_append_right _ (List.mem_singleton_self _), ?_⟩
      change Follows ex _ (x.slicesOf x.enrolled.length) _
      rw [hnone]
      exact .nil

theorem Tracks.wake (h : x.Tracks ex) : x.wake.Tracks ex :=
  ⟨h.known, fun m hm => h.follows m (x.everyone_wake.mem_iff.1 hm)⟩

theorem Valid.number_lt (h : x.Valid) {m : Nat × Thread} (hm : m ∈ x.everyone) :
    m.1 < x.enrolled.length :=
  List.mem_range.1 (h.perm_range.mem_iff.1 (List.mem_map_of_mem hm))

theorem Tracks.serve (h : x.Tracks ex) (hvalid : x.Valid) (budget count : Nat) :
    (x.serve ex budget count).Tracks ex := by
  have heveryone := everyone_eq ex budget count x
  obtain ⟨hgranted, -, hdisjoint⟩ := List.nodup_append.1 (hvalid.nodup_granted ex budget count)
  have hslices : ∀ n, (x.serve ex budget count).slicesOf n =
      x.slicesOf n ++ (x.granted ex budget count).filter (·.number == n) :=
    fun n => List.filter_append ..
  have hmember : ∀ g ∈ x.granted ex budget count, (g.number, g.thread) ∈ x.everyone := by
    intro g hg
    rw [heveryone]
    exact List.mem_append_left _ (List.mem_map_of_mem hg)
  refine ⟨fun g hg => ?_, fun m hm => ?_⟩
  · rcases List.mem_append.1 hg with hg | hg
    · exact h.known g hg
    · exact hvalid.number_lt (hmember g hg)
  · rcases List.mem_append.1 ((everyone_serve ex budget count x).mem_iff.1 hm) with hm | hm
    · -- a pass gives a thread one slice at most, so `g` is the only new one with its number
      obtain ⟨g, hg, rfl⟩ := List.mem_map.1 hm
      obtain ⟨t, ht, hfollows⟩ := h.follows _ (hmember g hg)
      have hone : (x.granted ex budget count).filter (·.number == g.number) = [g] := by
        have hcount : ((x.granted ex budget count).map Grant.number).count g.number = 1 :=
          List.count_eq_one_of_mem hgranted (List.mem_map_of_mem hg)
        rw [List.count, List.countP_map, List.countP_eq_length_filter] at hcount
        obtain ⟨only, honly⟩ := List.length_eq_one_iff.1 hcount
        have hmem : g ∈ [only] := honly ▸ List.mem_filter.2 ⟨hg, beq_self_eq_true g.number⟩
        obtain rfl := List.mem_singleton.1 hmem
        exact honly
      refine ⟨t, ht, ?_⟩
      rw [hslices, hone]
      refine hfollows.concat ?_
      obtain ⟨w, m, rfl⟩ := Executor.exists_of_mem_grants hg
      rfl
    · have hm' : m ∈ x.everyone := heveryone ▸ List.mem_append_right _ hm
      obtain ⟨t, ht, hfollows⟩ := h.follows m hm'
      have hnone : (x.granted ex budget count).filter (·.number == m.1) = [] := by
        refine List.filter_eq_nil_iff.2 fun g hg hnumber => ?_
        exact hdisjoint g.number (List.mem_map_of_mem hg) m.1 (List.mem_map_of_mem hm)
          (beq_iff_eq.1 hnumber)
      refine ⟨t, ht, ?_⟩
      rw [hslices, hnone, List.append_nil]
      exact hfollows

theorem tracks_new (ex : Executor σ) (w : σ) : (new w).Tracks ex :=
  ⟨fun _ hg => absurd hg List.not_mem_nil, fun _ hm => absurd hm List.not_mem_nil⟩

theorem tracks_performAll (ex : Executor σ) (w : σ) (ops : List (Operation σ)) :
    ((new w).performAll ex ops).Tracks ex := by
  suffices h : ∀ x : Roster σ, x.Valid ∧ x.Tracks ex → (x.performAll ex ops).Tracks ex from
    h _ ⟨valid_new w, tracks_new ex w⟩
  induction ops with
  | nil => exact fun x h => h.2
  | cons op ops ih =>
    intro x h
    refine ih _ (perform_induction (P := fun x => x.Valid ∧ x.Tracks ex) ?_ ?_ ?_ ?_ h op)
    · intro x s w hready hasleep h
      exact ⟨h.1.keep s w hready hasleep, h.2.known, h.2.follows⟩
    · intro x id routine entry h
      exact ⟨h.1.schedule id routine entry, h.2.schedule id routine entry⟩
    · intro x h
      exact ⟨h.1.wake, h.2.wake⟩
    · intro x budget count h
      exact ⟨h.1.serve ex budget count, h.2.serve h.1 budget count⟩

/-! ## Threads by id -/

theorem Valid.enrolled_inj (h : x.Valid) {t' : Thread} (ht : (n, t) ∈ x.enrolled)
    (ht' : (n, t') ∈ x.enrolled) : t = t' := by
  have hnodup : (x.enrolled.map Prod.fst).Nodup := by
    rw [h.numbers]
    exact List.nodup_range
  exact congrArg Prod.snd (List.inj_on_of_nodup_map hnodup ht ht' rfl)

theorem Tracks.of_number (h : x.Tracks ex) (hvalid : x.Valid) (hn : n < x.enrolled.length) :
    ∃ t t', (n, t) ∈ x.enrolled ∧ Follows ex t (x.slicesOf n) t' := by
  have hmem := hvalid.perm_range.mem_iff.2 (List.mem_range.2 hn)
  obtain ⟨m, hm, rfl⟩ := List.mem_map.1 hmem
  obtain ⟨t, ht, hfollows⟩ := h.follows m hm
  exact ⟨t, m.2, ht, hfollows⟩

theorem Tracks.enrolled_of_mem_log (h : x.Tracks ex) (hvalid : x.Valid) {g : Grant σ}
    (hg : g ∈ x.log) : ∃ t, (g.number, t) ∈ x.enrolled ∧ g.thread.id = t.id := by
  obtain ⟨t, t', ht, hfollows⟩ := h.of_number hvalid (h.known g hg)
  exact ⟨t, ht, hfollows.id_eq.2.2 g (List.mem_filter.2 ⟨hg, beq_self_eq_true g.number⟩)⟩

/-- A thread whose id no other has is followed by its id. -/
theorem Tracks.of_id (h : x.Tracks ex) (hvalid : x.Valid)
    (hids : (x.enrolled.map (·.2.id)).Nodup) (ht : (n, t) ∈ x.enrolled) :
    ∃ t', Follows ex t (x.log.filter (·.thread.id == t.id)) t' := by
  have hn : n < x.enrolled.length := by
    have hmem := List.mem_map_of_mem (f := Prod.fst) ht
    rw [hvalid.numbers] at hmem
    exact List.mem_range.1 hmem
  obtain ⟨u, t', hu, hfollows⟩ := h.of_number hvalid hn
  obtain rfl := hvalid.enrolled_inj ht hu
  have hsame : x.log.filter (·.thread.id == t.id) = x.slicesOf n := by
    refine List.filter_congr fun g hg => ?_
    obtain ⟨v, hv, hid⟩ := h.enrolled_of_mem_log hvalid hg
    rw [hid, Bool.eq_iff_iff, beq_iff_eq, beq_iff_eq]
    constructor
    · intro heq
      exact congrArg Prod.fst (List.inj_on_of_nodup_map hids hv ht heq)
    · intro heq
      rw [heq] at hv
      rw [hvalid.enrolled_inj hv ht]
  exact ⟨t', hsame ▸ hfollows⟩

end Roster

end TuneBlocks
