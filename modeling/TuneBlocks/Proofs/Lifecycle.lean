import TuneBlocks.Proofs.Journal

/-!
# Hooks bracket every run

A run calls the hooks before it in order up to the first that fails, then the handlers of its
program, then every hook after it, once and in order, whether or not one has failed before
(`Interpreter.hooks_bracket_runs`). The same holds of a session that is driven in any way and then
finished, or only released. The calls are read off the journal of the run, see
`Registry.journaled`.
-/

namespace TuneBlocks

variable {σ : Type}

/-- Calls of hooks in order, of which none comes after a failure and none is left out otherwise. -/
inductive UpToFailure : List Holder → List HookCall → Prop where
  | none : UpToFailure [] []
  | failed : UpToFailure (h :: hs) [⟨h, some message⟩]
  | went : UpToFailure hs calls → UpToFailure (h :: hs) (⟨h, .none⟩ :: calls)

/-- The first call that failed, with its message. -/
def firstFailure? : List HookCall → Option (Holder × String)
  | [] => none
  | ⟨_, none⟩ :: calls => firstFailure? calls
  | ⟨h, some message⟩ :: _ => some (h, message)

def hookEntries (phase : Phase) (calls : List HookCall) : List JournalEntry :=
  calls.map (.hook phase)

/-- The calls before, during and after a run that a journal consists of. -/
structure Registry.Brackets (r : Registry σ) (before : List HookCall)
    (during : List (String × List Value)) (after : List HookCall)
    (journal : List JournalEntry) : Prop where
  journal_eq :
    journal = hookEntries .setUp before ++ callEntries during ++ hookEntries .cleanUp after
  upToFailure : UpToFailure (r.holders .setUp) before
  all_after : after.map HookCall.holder = r.holders .cleanUp

/-! ## Hooks -/

namespace Registry

/-- The hooks of a phase with the names of their holders. -/
def namedHooks (r : Registry σ) : Phase → List (String × Hook σ)
  | .setUp => r.setUpHooks
  | .cleanUp => r.cleanUpHooks

theorem filterMap_zipIdx {α β : Type} (l : List α) (k : Nat) (f : α → Option β) :
    (l.zipIdx k).filterMap (fun x => f x.1) = l.filterMap f := by
  have hfst : (fun x : α × Nat => f x.1) = f ∘ Prod.fst := rfl
  rw [hfst, ← List.filterMap_map, List.zipIdx_map_fst]

theorem namedHooks_eq_append (r : Registry σ) (phase : Phase) : r.namedHooks phase =
    r.plugins.filterMap (fun p => (p.hook? phase).map (p.name, ·)) ++
      r.blocks.values.filterMap (fun b => (b.hook? phase).map (b.type, ·)) := by
  cases phase <;> rfl

theorem namedHooks_eq (r : Registry σ) (phase : Phase) :
    r.namedHooks phase = (r.hooks phase).map fun (h, hook) => (h.name, hook) := by
  rw [namedHooks_eq_append, ← filterMap_zipIdx r.plugins 0, ← filterMap_zipIdx r.blocks.values 0]
  simp only [hooks, List.map_append, List.map_filterMap, Option.map_map]
  rfl

theorem namedHooks_journaled (r : Registry σ) (phase : Phase) :
    r.journaled.namedHooks phase =
      (r.hooks phase).map fun (h, hook) => (h.name, journaledHook phase h hook) := by
  have hplugin (p : PluginHooks σ) (i : Nat) : (p.journaled i).hook? phase =
      (p.hook? phase).map (journaledHook phase (.plugin i p.name)) := by
    cases phase <;> rfl
  have hblock (b : BlockDef σ) (key : String) (i : Nat) : (b.journaled key i).hook? phase =
      (b.hook? phase).map (journaledHook phase (.block i b.type)) := by
    cases phase <;> rfl
  rw [namedHooks_eq_append]
  simp only [hooks, journaled, journaledBlocks, Keyed.values, List.zipIdx_map, List.map_append,
    List.map_filterMap, List.map_map, List.filterMap_map, Function.comp_def, hplugin, hblock,
    Option.map_map]
  rfl

/-- What the calls of hooks come to, where `error` says how a failure is reported. -/
def verdict (error : String → String → HookError) (calls : List HookCall) :
    Except HookError Unit :=
  match firstFailure? calls with
  | none => .ok ()
  | some (h, message) => .error (error h.name message)

theorem runUntilFailure_journaled (hooks : List (Holder × Hook σ)) (w : σ)
    (l : List JournalEntry) :
    let plain := runUntilFailure (hooks.map fun (h, hook) => (h.name, hook)) w
    ∃ calls, UpToFailure (hooks.map Prod.fst) calls ∧ plain.1 = verdict .setUp calls ∧
      runUntilFailure (hooks.map fun (h, hook) => (h.name, journaledHook .setUp h hook)) ⟨w, l⟩ =
        (plain.1, ⟨plain.2, l ++ hookEntries .setUp calls⟩) := by
  induction hooks generalizing w l with
  | nil => exact ⟨[], .none, rfl, by simp [runUntilFailure, hookEntries]⟩
  | cons e hooks ih =>
    obtain ⟨h, hook⟩ := e
    simp only [List.map_cons, runUntilFailure, journaledHook]
    cases hanswer : hook w with
    | mk answer w' =>
      cases answer with
      | error message =>
        refine ⟨[⟨h, some message⟩], .failed, rfl, rfl⟩
      | ok _ =>
        obtain ⟨calls, hcalls, hresult, hrun⟩ := ih w' (l ++ [.hook .setUp ⟨h, none⟩])
        refine ⟨⟨h, none⟩ :: calls, .went hcalls, hresult, ?_⟩
        simp only [hrun, hookEntries, List.map_cons, List.append_assoc, List.singleton_append]

theorem runAll_journaled (hooks : List (Holder × Hook σ)) (w : σ) (l : List JournalEntry) :
    let plain := runAll (hooks.map fun (h, hook) => (h.name, hook)) w
    ∃ calls, calls.map HookCall.holder = hooks.map Prod.fst ∧
      plain.1 = verdict .cleanUp calls ∧
      runAll (hooks.map fun (h, hook) => (h.name, journaledHook .cleanUp h hook)) ⟨w, l⟩ =
        (plain.1, ⟨plain.2, l ++ hookEntries .cleanUp calls⟩) := by
  induction hooks generalizing w l with
  | nil => exact ⟨[], rfl, rfl, by simp [runAll, hookEntries]⟩
  | cons e hooks ih =>
    obtain ⟨h, hook⟩ := e
    simp only [List.map_cons, runAll, journaledHook]
    cases hanswer : hook w with
    | mk answer w' =>
      cases answer with
      | error message =>
        obtain ⟨calls, hcalls, -, hrun⟩ := ih w' (l ++ [.hook .cleanUp ⟨h, some message⟩])
        refine ⟨⟨h, some message⟩ :: calls, by simp only [List.map_cons, hcalls], rfl, ?_⟩
        simp only [hrun, hookEntries, List.map_cons, List.append_assoc, List.singleton_append]
      | ok _ =>
        obtain ⟨calls, hcalls, hresult, hrun⟩ := ih w' (l ++ [.hook .cleanUp ⟨h, none⟩])
        refine ⟨⟨h, none⟩ :: calls, by simp only [List.map_cons, hcalls], hresult, ?_⟩
        simp only [hrun, hookEntries, List.map_cons, List.append_assoc, List.singleton_append]

theorem setUpAll_journaled (r : Registry σ) (w : σ) (l : List JournalEntry) :
    ∃ calls, UpToFailure (r.holders .setUp) calls ∧ (r.setUpAll w).1 = verdict .setUp calls ∧
      r.journaled.setUpAll ⟨w, l⟩ =
        ((r.setUpAll w).1, ⟨(r.setUpAll w).2, l ++ hookEntries .setUp calls⟩) := by
  have hplain : r.setUpHooks = _ := r.namedHooks_eq .setUp
  have hjournaled : r.journaled.setUpHooks = _ := r.namedHooks_journaled .setUp
  simp only [setUpAll, hplain, hjournaled]
  exact runUntilFailure_journaled (r.hooks .setUp) w l

theorem cleanUpAll_journaled (r : Registry σ) (w : σ) (l : List JournalEntry) :
    ∃ calls, calls.map HookCall.holder = r.holders .cleanUp ∧
      (r.cleanUpAll w).1 = verdict .cleanUp calls ∧
      r.journaled.cleanUpAll ⟨w, l⟩ =
        ((r.cleanUpAll w).1, ⟨(r.cleanUpAll w).2, l ++ hookEntries .cleanUp calls⟩) := by
  have hplain : r.cleanUpHooks = _ := r.namedHooks_eq .cleanUp
  have hjournaled : r.journaled.cleanUpHooks = _ := r.namedHooks_journaled .cleanUp
  simp only [cleanUpAll, hplain, hjournaled]
  exact runAll_journaled (r.hooks .cleanUp) w l

end Registry

/-! ## Sessions -/

/-- How a session ends. -/
inductive Ending where
  | finish
  | release

/-- What an end comes to, for the calls of hooks that it makes: only a session that is finished
answers for them. -/
def Ending.verdict (calls : List HookCall) : Ending → Except HookError Unit
  | finish => Registry.verdict .cleanUp calls
  | release => .ok ()

namespace Session

def journaled (s : Session σ) : Session (Journaled σ) :=
  ⟨s.interpreter.journaled, s.scheduler.journaled, s.breakpoints, s.finished⟩

/-- Does some operations of the scheduler. -/
def operate (s : Session σ) (w : σ) (ops : List (Operation (Machine σ))) : Session σ × σ :=
  s.update w fun ex scheduler v => scheduler.performAll ex v ops

/-- Ends a session. One that is finished is released after that. -/
def conclude (s : Session σ) (w : σ) : Ending → Except HookError Unit × σ
  | .finish =>
    let (result, s, w) := s.finish w
    (result, s.release w)
  | .release => (.ok (), s.release w)

/-- Does some operations, then ends the session. -/
def runOut (s : Session σ) (w : σ) (ops : List (Operation (Machine σ))) (ending : Ending) :
    Except HookError Unit × σ :=
  (s.operate w ops).1.conclude (s.operate w ops).2 ending

theorem threadsOf_eq (p : Program) : (threadsOf p : Scheduler (Machine σ)) =
    { (.new : Scheduler (Machine σ)) with
      ready := p.routines.values.map fun r => ⟨r.name, r.name, .start r.name r.entry⟩ } := by
  rw [threadsOf, Scheduler.foldl_schedule]
  rfl

theorem threadsOf_journaled (p : Program) :
    threadsOf (σ := Journaled σ) p = (threadsOf p).journaled := by
  rw [threadsOf_eq, threadsOf_eq]
  rfl

/-- The calls that some operations make, slice by slice. -/
def callsOf (s : Session σ) (w : σ) (ops : List (Operation (Machine σ))) :
    List (String × List Value) :=
  ((Roster.of s.scheduler ⟨s.breakpoints, w⟩).performAll s.interpreter.executor ops).log.flatMap
    (Grant.calls s.interpreter)

theorem operate_journaled (s : Session σ) (w : σ) (l : List JournalEntry)
    (ops : List (Operation (Machine σ))) :
    s.journaled.operate ⟨w, l⟩ (ops.map Operation.journaled) =
      ((s.operate w ops).1.journaled,
        ⟨(s.operate w ops).2, l ++ callEntries (s.callsOf w ops)⟩) := by
  have hperform : s.journaled.scheduler.performAll s.journaled.interpreter.executor
      ⟨s.journaled.breakpoints, ⟨w, l⟩⟩ (ops.map Operation.journaled) = _ :=
    Scheduler.performAll_journaled s.interpreter s.scheduler ⟨s.breakpoints, w⟩ l ops
  simp only [operate, update, hperform]
  rfl

theorem conclude_journaled {s : Session σ} (hs : s.finished = false) (w : σ)
    (l : List JournalEntry) (ending : Ending) :
    ∃ calls, calls.map HookCall.holder = s.interpreter.registry.holders .cleanUp ∧
      (s.conclude w ending).1 = ending.verdict calls ∧
      s.journaled.conclude ⟨w, l⟩ ending =
        ((s.conclude w ending).1, ⟨(s.conclude w ending).2, l ++ hookEntries .cleanUp calls⟩) := by
  obtain ⟨calls, hcalls, hresult, hrun⟩ := s.interpreter.registry.cleanUpAll_journaled w l
  have hrun' : s.journaled.interpreter.registry.cleanUpAll ⟨w, l⟩ = _ := hrun
  refine ⟨calls, hcalls, ?_⟩
  cases ending with
  | finish =>
    simp only [conclude, finish, release, ↓reduceIte, hrun']
    exact ⟨hresult, trivial⟩
  | release =>
    have hs' : s.journaled.finished = false := hs
    simp only [conclude, release, hs, hs', Bool.false_eq_true, ↓reduceIte, hrun', Ending.verdict,
      and_self]

/-- A session as it starts. -/
def fresh (m : Interpreter σ) : Session σ := ⟨m, threadsOf m.program, [], false⟩

theorem start_of_error {m : Interpreter σ} {w : σ} {e : HookError}
    (h : (m.registry.setUpAll w).1 = .error e) :
    start m w = (.error e, (m.registry.cleanUpAll (m.registry.setUpAll w).2).2) := by
  unfold start
  split
  · rename_i heq
    rw [heq] at h
    cases h
  · rename_i heq
    rw [heq] at h ⊢
    cases h
    rfl

theorem start_of_ok {m : Interpreter σ} {w : σ} (h : (m.registry.setUpAll w).1 = .ok ()) :
    start m w = (.ok (fresh m), (m.registry.setUpAll w).2) := by
  unfold start
  split
  · rename_i heq
    rw [heq]
    rfl
  · rename_i heq
    rw [heq] at h
    cases h

theorem fresh_journaled (m : Interpreter σ) : fresh m.journaled = (fresh m).journaled := by
  simp only [fresh, journaled]
  rw [threadsOf_journaled]
  rfl

theorem runPulses_keeps (delta : Float) (budget limit count : Nat) (s : Session σ) (w : σ) :
    (runPulses delta budget limit count s w).2.1.interpreter = s.interpreter ∧
      (runPulses delta budget limit count s w).2.1.finished = s.finished := by
  induction limit generalizing count s w with
  | zero => exact ⟨rfl, rfl⟩
  | succ limit ih =>
    unfold runPulses
    split
    · exact ⟨rfl, rfl⟩
    · exact ih (count + 1) (s.pulse delta budget w).1 (s.pulse delta budget w).2

theorem runPulses_journaled (delta : Float) (budget limit count : Nat) (s : Session σ) (w : σ)
    (l : List JournalEntry) :
    let plain := runPulses delta budget limit count s w
    ∃ calls, runPulses delta budget limit count s.journaled ⟨w, l⟩ =
      (plain.1, plain.2.1.journaled, ⟨plain.2.2, l ++ callEntries calls⟩) := by
  induction limit generalizing count s w l with
  | zero => exact ⟨[], by rw [append_callEntries_nil]; rfl⟩
  | succ limit ih =>
    have hidle : s.journaled.scheduler.isIdle = s.scheduler.isIdle := rfl
    simp only [runPulses, hidle]
    split
    · exact ⟨[], by rw [append_callEntries_nil]⟩
    · let calls := s.callsOf w [.pulse delta budget]
      have hpulse : s.journaled.pulse delta budget ⟨w, l⟩ =
          ((s.pulse delta budget w).1.journaled,
            ⟨(s.pulse delta budget w).2, l ++ callEntries calls⟩) :=
        operate_journaled s w l [.pulse delta budget]
      obtain ⟨calls', hrest⟩ := ih (count + 1) (s.pulse delta budget w).1
        (s.pulse delta budget w).2 (l ++ callEntries calls)
      refine ⟨calls ++ calls', ?_⟩
      rw [callEntries_append, ← List.append_assoc, hpulse]
      exact hrest

/-- The calls of a session that starts, whose hooks before the run have made `before`. -/
theorem runOut_journaled (m : Interpreter σ) (w : σ) (before : List HookCall)
    (ops : List (Operation (Machine σ))) (ending : Ending) :
    ∃ during after, after.map HookCall.holder = m.registry.holders .cleanUp ∧
      ((fresh m).runOut w ops ending).1 = ending.verdict after ∧
      (fresh m).journaled.runOut ⟨w, hookEntries .setUp before⟩ (ops.map Operation.journaled)
          ending =
        (((fresh m).runOut w ops ending).1, ⟨((fresh m).runOut w ops ending).2,
          hookEntries .setUp before ++ callEntries during ++ hookEntries .cleanUp after⟩) := by
  obtain ⟨after, hafter, hresult, hconclude⟩ :=
    conclude_journaled (s := ((fresh m).operate w ops).1) rfl ((fresh m).operate w ops).2
      (hookEntries .setUp before ++ callEntries ((fresh m).callsOf w ops)) ending
  refine ⟨(fresh m).callsOf w ops, after, hafter, hresult, ?_⟩
  rw [runOut, operate_journaled]
  exact hconclude

end Session

/-! ## Runs -/

namespace Interpreter

/-- A run is a session that is driven by pulses and then finished. -/
theorem runProgram_of_ok {m : Interpreter σ} {w : σ} (h : (m.registry.setUpAll w).1 = .ok ())
    (o : RunOptions) :
    let (pulses, s, v) := Session.runPulses o.pulse o.budget o.maxPulses 0 (.fresh m)
      (m.registry.setUpAll w).2
    m.runProgram o w = ((s.conclude v .finish).1.map fun () =>
      ⟨pulses, s.scheduler.clock, s.scheduler.isIdle⟩, (s.conclude v .finish).2) := by
  simp only [runProgram, Session.start_of_ok h]
  rfl

theorem runProgram_of_error {m : Interpreter σ} {w : σ} {e : HookError}
    (h : (m.registry.setUpAll w).1 = .error e) (o : RunOptions) :
    m.runProgram o w = (.error e, (m.registry.cleanUpAll (m.registry.setUpAll w).2).2) := by
  simp only [runProgram, Session.start_of_error h]

/-- The calls of a run that a hook before it has failed. -/
theorem runProgram_journaled_of_error {m : Interpreter σ} {w v : σ} {e : HookError}
    {before : List HookCall} (h : m.registry.setUpAll w = (.error e, v))
    (h' : m.registry.journaled.setUpAll ⟨w, []⟩ = (.error e, ⟨v, hookEntries .setUp before⟩))
    (o : RunOptions) :
    ∃ after, after.map HookCall.holder = m.registry.holders .cleanUp ∧
      m.journaled.runProgram o ⟨w, []⟩ = ((m.runProgram o w).1, ⟨(m.runProgram o w).2,
        hookEntries .setUp before ++ callEntries [] ++ hookEntries .cleanUp after⟩) := by
  have hrun := runProgram_of_error (congrArg Prod.fst h) o
  have hrun' := runProgram_of_error (m := m.journaled) (congrArg Prod.fst h') o
  have hstate : (m.journaled.registry.setUpAll ⟨w, []⟩).2 = ⟨v, hookEntries .setUp before⟩ :=
    congrArg Prod.snd h'
  obtain ⟨after, hafter, -, hcleanUp⟩ :=
    m.registry.cleanUpAll_journaled v (hookEntries .setUp before)
  refine ⟨after, hafter, ?_⟩
  rw [hrun', hstate, hrun, h, append_callEntries_nil]
  exact congrArg (fun x => (_, x.2)) hcleanUp

/-- The calls of a run for which the hooks before it have made `before` without a failure. -/
theorem runProgram_journaled {m : Interpreter σ} {w v : σ} {before : List HookCall}
    (h : m.registry.setUpAll w = (.ok (), v))
    (h' : m.registry.journaled.setUpAll ⟨w, []⟩ = (.ok (), ⟨v, hookEntries .setUp before⟩))
    (o : RunOptions) :
    ∃ during after report, after.map HookCall.holder = m.registry.holders .cleanUp ∧
      (m.runProgram o w).1 = (Registry.verdict .cleanUp after).map (fun () => report) ∧
      m.journaled.runProgram o ⟨w, []⟩ = ((m.runProgram o w).1, ⟨(m.runProgram o w).2,
        hookEntries .setUp before ++ callEntries during ++ hookEntries .cleanUp after⟩) := by
  have hrun := runProgram_of_ok (congrArg Prod.fst h) o
  have hrun' := runProgram_of_ok (m := m.journaled) (congrArg Prod.fst h') o
  have hstate : (m.journaled.registry.setUpAll ⟨w, []⟩).2 = ⟨v, hookEntries .setUp before⟩ :=
    congrArg Prod.snd h'
  have hkeeps := Session.runPulses_keeps o.pulse o.budget o.maxPulses 0 (.fresh m) v
  obtain ⟨during, hpulses⟩ := Session.runPulses_journaled o.pulse o.budget o.maxPulses 0
    (.fresh m) v (hookEntries .setUp before)
  rw [h] at hrun
  rw [hstate, Session.fresh_journaled, hpulses] at hrun'
  generalize Session.runPulses o.pulse o.budget o.maxPulses 0 (.fresh m) v = x
    at hrun hrun' hkeeps
  obtain ⟨pulses, s, u⟩ := x
  obtain ⟨after, hafter, hresult, hconclude⟩ := Session.conclude_journaled (s := s) hkeeps.2 u
    (hookEntries .setUp before ++ callEntries during) .finish
  simp only [hconclude] at hrun'
  refine ⟨during, after, ⟨pulses, s.scheduler.clock, s.scheduler.isIdle⟩, ?_, ?_, ?_⟩
  · rw [hafter, hkeeps.1]
    rfl
  · rw [hrun, hresult]
    rfl
  · rw [hrun, hrun']
    rfl

end Interpreter

/-- **Hooks bracket every run.** A run that a hook before it fails is the same for every program and
makes no calls. -/
theorem Interpreter.hooks_bracket_runs (m : Interpreter σ) (w : σ) :
    (∀ o : RunOptions, ∃ journal before during after,
      m.journaled.runProgram o ⟨w, []⟩ =
        ((m.runProgram o w).1, ⟨(m.runProgram o w).2, journal⟩) ∧
      m.registry.Brackets before during after journal ∧
      match firstFailure? before, firstFailure? after with
      | some (h, message), _ =>
        (m.runProgram o w).1 = .error (.setUp h.name message) ∧ during = [] ∧
          ∀ p o', ({ m with program := p } : Interpreter σ).runProgram o' w = m.runProgram o w
      | none, some (h, message) => (m.runProgram o w).1 = .error (.cleanUp h.name message)
      | none, none => ∃ report, (m.runProgram o w).1 = .ok report) ∧
    ∀ s w', Session.start m w = (.ok s, w') → ∀ ops ending, ∃ v journal before during after,
      Session.start m.journaled ⟨w, []⟩ = (.ok s.journaled, v) ∧
      s.journaled.runOut v (ops.map Operation.journaled) ending =
        ((s.runOut w' ops ending).1, ⟨(s.runOut w' ops ending).2, journal⟩) ∧
      m.registry.Brackets before during after journal ∧ firstFailure? before = none ∧
      (s.runOut w' ops ending).1 = ending.verdict after := by
  obtain ⟨before, hbefore, hverdict, hsetUp⟩ := m.registry.setUpAll_journaled w []
  rw [hverdict, List.nil_append] at hsetUp
  unfold Registry.verdict at hverdict hsetUp
  cases hfailure : firstFailure? before with
  | some f =>
    simp only [hfailure] at hverdict hsetUp
    refine ⟨fun o => ?_, fun s w' hstart => ?_⟩
    · obtain ⟨after, hafter, hrun⟩ :=
        runProgram_journaled_of_error (Prod.ext hverdict rfl) hsetUp o
      refine ⟨_, before, [], after, hrun, ⟨rfl, hbefore, hafter⟩, ?_⟩
      have hrefused := runProgram_of_error hverdict o
      rw [hfailure, hrefused]
      exact ⟨rfl, rfl, fun p o' => runProgram_of_error (m := { m with program := p }) hverdict o'⟩
    · rw [Session.start_of_error hverdict] at hstart
      cases hstart
  | none =>
    simp only [hfailure] at hverdict hsetUp
    refine ⟨fun o => ?_, fun s w' hstart ops ending => ?_⟩
    · obtain ⟨during, after, report, hafter, hresult, hrun⟩ :=
        runProgram_journaled (Prod.ext hverdict rfl) hsetUp o
      refine ⟨_, before, during, after, hrun, ⟨rfl, hbefore, hafter⟩, ?_⟩
      rw [hfailure, hresult]
      cases hfailure' : firstFailure? after with
      | some f => simp only [Registry.verdict, hfailure', Except.map]
      | none => exact ⟨report, by simp only [Registry.verdict, hfailure', Except.map]⟩
    · rw [Session.start_of_ok hverdict] at hstart
      cases hstart
      have hstart' := Session.start_of_ok (m := m.journaled) (congrArg Prod.fst hsetUp)
      have hstate : (m.journaled.registry.setUpAll ⟨w, []⟩).2 = _ := congrArg Prod.snd hsetUp
      rw [hstate, Session.fresh_journaled] at hstart'
      obtain ⟨during, after, hafter, hresult, hrun⟩ :=
        Session.runOut_journaled m (m.registry.setUpAll w).2 before ops ending
      exact ⟨_, _, before, during, after, hstart', hrun, ⟨rfl, hbefore, hafter⟩, hfailure, hresult⟩

/-- Two plugins that fail after every run, over a world that counts the hooks before it. -/
def twoFailures : Interpreter Nat where
  program := .empty
  registry :=
    { plugins :=
        [{ name := "a", cleanUp := some fun w => (.error "first", w) },
          { name := "b", setUp := some fun w => (.ok (), w + 1),
            cleanUp := some fun w => (.error "second", w) }]
      blocks := ∅ }

theorem Interpreter.hooks_bracket_runs_twoFailures :
    Session.start twoFailures 0 = (.ok (.fresh twoFailures), 1) ∧
    ((Session.fresh twoFailures).runOut 1 [.pulse 16 10] .finish).1 =
      .error (.cleanUp "a" "first") ∧
    ∃ v journal before during after,
      Session.start twoFailures.journaled ⟨0, []⟩ = (.ok (Session.fresh twoFailures).journaled, v) ∧
      (Session.fresh twoFailures).journaled.runOut v [.pulse 16 10] .finish =
        (.error (.cleanUp "a" "first"), ⟨1, journal⟩) ∧
      twoFailures.registry.Brackets before during after journal ∧ firstFailure? before = none := by
  obtain ⟨v, journal, before, during, after, hstart, hrun, hbrackets, hbefore, -⟩ :=
    (hooks_bracket_runs twoFailures 0).2 (.fresh twoFailures) 1 rfl [.pulse 16 10] .finish
  exact ⟨rfl, rfl, v, journal, before, during, after, hstart, hrun, hbrackets, hbefore⟩

end TuneBlocks
