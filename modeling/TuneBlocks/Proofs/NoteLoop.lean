import TuneBlocks.Proofs.Meaning

/-!
# A note in a loop

The thread of a graph that repeats one note and does nothing else. `NoteLoop` is the shape of its
code, which the compiled routine has (`Graph.RepeatsNote.exists_noteLoop`). A slice of at least five
instructions takes the thread from one note to the next: it counts the pass that is over, tests the
counter, and plays or halts (`NoteLoop.slice_plays`, `NoteLoop.slice_halts`).
-/

namespace TuneBlocks

/-! ## Quiet instructions -/

/-- Whether an action is done without a call and without giving up the slice. -/
def Action.isQuiet : Action → Bool
  | .call .. | .yield => false
  | _ => true

namespace Interpreter

variable {σ : Type} {registry : Registry σ} {r : Routine}

/-- A number of quiet instructions lead from one position to another. -/
inductive Quietly (registry : Registry σ) (r : Routine) : Nat → Position → Position → Prop
  | refl : Quietly registry r 0 p p
  | head : r.instruction? p = some i → i.action.isQuiet = true →
      Quietly registry r n (p.after registry i.action) q → Quietly registry r (n + 1) p q

theorem execute_quiet {a : Action} (ha : a.isQuiet = true) (now : Float) (c : Context) (w : σ) :
    ∃ c', execute registry a now c w = .next c' w := by
  cases a with
  | call | yield => cases ha
  | _ => exact ⟨_, rfl⟩

theorem turn_quiet (hregistry : registry.Transparent) {c : Context} {i : Instruction}
    (hi : r.instruction? c.position = some i) (hquiet : i.action.isQuiet = true) (now : Float)
    (w : σ) : ∃ c', turn registry r [] now c w = .next c' w ∧
      c'.position = c.position.after registry i.action := by
  have hfetch : fetch? r c = some i := hi
  obtain ⟨c', hnext⟩ := execute_quiet hquiet now (advance c i) w
  have hturn : turn registry r [] now c w = .next c' w := by
    simp only [turn, hfetch, stopsAt?_nil]
    exact hnext
  have hleaves := turn_leavesAs hregistry hi now w
  rw [hturn] at hleaves
  exact ⟨c', hturn, hleaves⟩

/-- A slice gets through quiet instructions without touching the world. -/
theorem run_quietly (hregistry : registry.Transparent) {n : Nat} {p q : Position}
    (h : Quietly registry r n p q) {c : Context} (hc : c.position = p) (now : Float) (w : σ) :
    ∃ c', c'.position = q ∧
      ∀ k, run registry r [] now (n + k) c w = run registry r [] now k c' w := by
  induction h generalizing c with
  | refl => exact ⟨c, hc, fun k => by rw [Nat.zero_add]⟩
  | @head p i n q hi hquiet _ ih =>
    subst hc
    obtain ⟨c₁, hturn, hposition⟩ := turn_quiet hregistry hi hquiet now w
    obtain ⟨c', hc', hrun⟩ := ih hposition
    refine ⟨c', hc', fun k => ?_⟩
    rw [Nat.add_right_comm, run, hturn]
    exact hrun k

end Interpreter

/-! ## Memory with one variable -/

namespace Memory

/-- The memory that holds one variable. -/
def single (name : String) (v : Value) : Memory := empty.declare name v

theorem get?_single (name x : String) (v : Value) :
    (single name v).get? x = if x = name then some v else none :=
  get?_declare empty name x v

theorem assign_single (name : String) (v v' : Value) :
    (single name v).assign name v' = single name v' := by
  have hbound : (single name v).inner.contains name = true := by
    simp [single, declare, Keyed.contains]
  rw [assign, if_pos hbound]
  refine Memory.ext (Keyed.ext ?_) rfl
  have hentries : ∀ a : Value, ((∅ : Scope).insert name a).entries = [(name, a)] := fun _ => rfl
  simp only [single, declare, empty, Keyed.insert, Keyed.upsert] at hentries ⊢
  simp [hentries, Keyed.upsertEntries]

end Memory

/-! ## The code -/

/-- What a loop has counted after a number of passes. -/
def passCount : Nat → Float
  | 0 => 0
  | k + 1 => passCount k + 1

/-- The code of a thread that plays a note again and again while its counter is below a bound. -/
structure NoteLoop (r : Routine) where
  counter : String
  bound : Float
  pitch : Operand
  beats : Value
  init : Label
  cond : Label
  note : Label
  increment : Label
  /-- Where the thread halts. -/
  exit : Label
  counter_ne : counter ≠ Music.tempoVariable
  entry_block : ∃ a, r.block? r.entry = some ⟨r.entry, [⟨.jump init, a⟩]⟩
  init_block : ∃ a b, r.block? init =
    some ⟨init, [⟨.declare counter (.literal (.number 0)), a⟩, ⟨.jump cond, b⟩]⟩
  cond_block : ∃ a, r.block? cond =
    some ⟨cond, [⟨.branch .lt counter (.literal (.number bound)) note exit, a⟩]⟩
  note_block : ∃ a b, r.block? note =
    some ⟨note, [⟨.call "play_note" [pitch, .literal beats], a⟩, ⟨.jump increment, b⟩]⟩
  increment_block : ∃ a b, r.block? increment =
    some ⟨increment, [⟨.add counter (.literal (.number 1)), a⟩, ⟨.jump cond, b⟩]⟩
  exit_block : r.block? exit = some ⟨exit, []⟩

namespace NoteLoop

variable {r : Routine} (l : NoteLoop r)

/-- How long the note lasts, in milliseconds. -/
def duration : Float := l.beats.toNumber * 60000 / Music.defaultTempo

/-- What the thread remembers in a pass. -/
def memory (k : Nat) : Memory := .single l.counter (.number (passCount k))

/-- The note of a pass; it may be one that the counter gives. -/
def pitchAt (k : Nat) : String := Music.pitchName ((l.memory k).resolve l.pitch)

/-- Where the thread is before it tests its counter for a pass: at its entry, or behind the note of
the pass before. -/
def place : Nat → Position
  | 0 => ⟨r.entry, 0, .empty⟩
  | k + 1 => ⟨l.note, 1, l.memory k⟩

theorem lookup_counter (k : Nat) : (l.memory k).lookup l.counter = .number (passCount k) := by
  rw [Memory.lookup, memory, Memory.get?_single, if_pos rfl]
  rfl

open Interpreter in
/-- The test of the counter for a pass, four instructions from the place before it. -/
theorem quietly_test {σ : Type} (registry : Registry σ) (k : Nat) :
    Quietly registry r 4 (l.place k)
      ⟨if passCount k < l.bound then l.note else l.exit, 0, l.memory k⟩ := by
  obtain ⟨_, hcond⟩ := l.cond_block
  have htest : Quietly registry r 1 ⟨l.cond, 0, l.memory k⟩
      ⟨if passCount k < l.bound then l.note else l.exit, 0, l.memory k⟩ := by
    have hbranch : Quietly registry r 1 ⟨l.cond, 0, l.memory k⟩ _ :=
      .head (instruction?_of_block _ hcond 0) rfl .refl
    simp only [Position.after, l.lookup_counter, Memory.resolve, Value.compare, Value.toNumber,
      decide_eq_true_eq] at hbranch
    exact hbranch
  cases k with
  | zero =>
    obtain ⟨_, hentry⟩ := l.entry_block
    obtain ⟨_, _, hinit⟩ := l.init_block
    exact .head (instruction?_of_block _ hentry 0) rfl <|
      .head (instruction?_of_block _ hinit 0) rfl <|
        .head (instruction?_of_block _ hinit 1) rfl htest
  | succ k =>
    obtain ⟨_, _, hnote⟩ := l.note_block
    obtain ⟨_, _, hincrement⟩ := l.increment_block
    have hcount : (l.memory k).assign l.counter
        (((l.memory k).lookup l.counter).add (.number 1)) = l.memory (k + 1) := by
      rw [l.lookup_counter]
      exact Memory.assign_single ..
    have hadd : (Position.mk l.increment 0 (l.memory k)).after registry
        (.add l.counter (.literal (.number 1))) = ⟨l.increment, 1, l.memory (k + 1)⟩ :=
      congrArg (Position.mk l.increment 1) hcount
    have hrest : Quietly registry r 2 ⟨l.increment, 1, l.memory (k + 1)⟩ _ :=
      .head (instruction?_of_block _ hincrement 1) rfl htest
    rw [← hadd] at hrest
    exact .head (instruction?_of_block _ hnote 1) rfl <|
      .head (instruction?_of_block _ hincrement 0) rfl hrest

theorem tempo_eq {c : Context} {k : Nat} (hc : c.memory = l.memory k) :
    Music.tempo c = Music.defaultTempo := by
  rw [Music.tempo, hc, memory, Memory.get?_single, if_neg l.counter_ne.symm]
  rfl

/-! ## Slices -/

section
variable {budget : Nat} {k : Nat} {c : Context}

open Interpreter in
/-- What a slice does once it has tested the counter. -/
theorem run_tested (hbudget : 5 ≤ budget) (hc : c.position = l.place k) (now : Float) (w : Sink) :
    ∃ c' n, c'.position = ⟨if passCount k < l.bound then l.note else l.exit, 0, l.memory k⟩ ∧
      run (.standard Sink) r [] now budget c w = run (.standard Sink) r [] now (n + 1) c' w := by
  obtain ⟨n, rfl⟩ := Nat.exists_eq_add_of_le hbudget
  obtain ⟨c', hposition, hrun⟩ := run_quietly (Registry.transparent_standard Sink)
    (l.quietly_test (.standard Sink) k) hc now w
  refine ⟨c', n, hposition, ?_⟩
  rw [← hrun, ← Nat.add_assoc, Nat.add_right_comm]

open Interpreter in
/-- **A slice plays the note of the next pass**, if there is one. -/
theorem slice_plays (hbudget : 5 ≤ budget) (hc : c.position = l.place k)
    (hk : passCount k < l.bound) (now : Float) (w : Sink) :
    ∃ c', c'.position = l.place (k + 1) ∧ run (.standard Sink) r [] now budget c w =
      ⟨.sleeping (now + l.duration), c', w.emit (.note (l.pitchAt k) l.duration now)⟩ := by
  obtain ⟨c₁, n, hposition, hrun⟩ := l.run_tested hbudget hc now w
  rw [if_pos hk] at hposition
  obtain ⟨a, b, hnote⟩ := l.note_block
  have hi := instruction?_of_block (l.memory k) hnote 0
  rw [← hposition] at hi
  let i : Instruction := ⟨.call "play_note" [l.pitch, .literal l.beats], a⟩
  have hfetch : fetch? r c₁ = some i := hi
  have hhandler : (Registry.standard Sink).handler? "play_note" = some Music.playNote := by
    simp only [Registry.handler?_standard, String.reduceEq, ↓reduceIte]
  have hmemory : (advance c₁ i).memory = l.memory k := congrArg Position.memory hposition
  have hduration : Music.beatsToMs l.beats (advance c₁ i) = l.duration := by
    rw [Music.beatsToMs, l.tempo_eq hmemory, duration]
  have hpitch : (advance c₁ i).resolve l.pitch = (l.memory k).resolve l.pitch := by
    rw [Context.resolve_eq, hmemory]
  have hreply : Music.playNote ([l.pitch, .literal l.beats].map (advance c₁ i).resolve) now
      (advance c₁ i) w = ⟨some (.sleeping (now + l.duration)), advance c₁ i,
        w.emit (.note (l.pitchAt k) l.duration now)⟩ := by
    rw [List.map_cons, hpitch, pitchAt, ← hduration]
    rfl
  have hblock : c₁.block = l.note := congrArg Position.block hposition
  have hip : c₁.ip = 0 := congrArg Position.ip hposition
  refine ⟨advance c₁ i, Position.ext hblock (congrArg (· + 1) hip) hmemory, ?_⟩
  rw [hrun]
  simp only [run, turn, hfetch, stopsAt?_nil]
  simp only [i, execute, hhandler, hreply]

open Interpreter in
/-- A slice halts the thread when no pass is left. -/
theorem slice_halts (hbudget : 5 ≤ budget) (hc : c.position = l.place k)
    (hk : ¬ passCount k < l.bound) (now : Float) (w : Sink) :
    ∃ c', run (.standard Sink) r [] now budget c w = ⟨.halted, c', w⟩ := by
  obtain ⟨c', n, hposition, hrun⟩ := l.run_tested hbudget hc now w
  rw [if_neg hk] at hposition
  have hstuck := instruction?_of_block (l.memory k) l.exit_block 0
  rw [← hposition] at hstuck
  exact ⟨c', hrun.trans (run_of_stuck hstuck [] now (Nat.le_add_left 1 n) w)⟩

end

end NoteLoop

/-! ## Graphs -/

/-- From the start node `s` the graph leads to the loop `r` with `x` passes, whose body is the note
`p`, and to nothing else. -/
structure Graph.RepeatsNote (g : Graph) (s r p : Node) (x : Float) (beats : Value) : Prop where
  start : g.get? s.id = some s
  start_type : s.type = "start"
  start_next : s.next = some r.id
  loop : g.get? r.id = some r
  loop_type : r.type = "repeat"
  loop_body : r.body = some p.id
  loop_next : r.next.bind g.get? = none
  iterations : Core.iterations r = .literal (.number x)
  note : g.get? p.id = some p
  note_type : p.type = "play_note"
  note_next : p.next.bind g.get? = none
  beats : Operand.ofInput (p.valueInput "beats" (.number 1)) = .literal beats

theorem Graph.ids_ne {g : Graph} {m n : Node} (hm : g.get? m.id = some m)
    (hn : g.get? n.id = some n) (h : m.type ≠ n.type) : m.id ≠ n.id := by
  intro heq
  rw [heq, hn] at hm
  cases hm
  exact h rfl

namespace Graph.RepeatsNote

variable {g : Graph} {s r p : Node} {x : Float} {beats : Value} (h : g.RepeatsNote s r p x beats)

/-- The pitch that the note is given. -/
def pitchOf (p : Node) : Operand := .ofInput (p.valueInput "pitch" (.text "C4"))

include h

theorem kind_start : s.kind = .place := by
  simp only [Node.kind, h.start_type]

theorem kind_loop : r.kind = .counted (.literal (.number x)) := by
  simp only [Node.kind, h.loop_type, h.iterations]

theorem kind_note : p.kind = .act (.call "play_note" [pitchOf p, .literal beats]) := by
  simp only [Node.kind, h.note_type, Node.call, List.map_cons, List.map_nil, h.beats, pitchOf]

theorem loop_ne_start : r.id ≠ s.id :=
  ids_ne h.loop h.start (by rw [h.loop_type, h.start_type]; decide)

theorem note_ne_start : p.id ≠ s.id :=
  ids_ne h.note h.start (by rw [h.note_type, h.start_type]; decide)

theorem note_ne_loop : p.id ≠ r.id :=
  ids_ne h.note h.loop (by rw [h.note_type, h.loop_type]; decide)

theorem threadOutline_eq : Lowering.threadOutline g s.id =
    .node s (.ending none) (.node r (.node p (.ending none) (.ending none)) (.ending none)) := by
  have hchain : g.chain [] (some s.id) = ([s, r], none) := by
    rw [chain_of_node h.start List.not_mem_nil, h.start_next,
      chain_of_node h.loop (mt List.mem_singleton.1 h.loop_ne_start), chain_of_nowhere h.loop_next]
  have hactive : p.id ∉ [s.id, r.id] := by simp [h.note_ne_start, h.note_ne_loop]
  have hbody : g.chain [s.id, r.id] r.body = ([p], none) := by
    rw [h.loop_body, chain_of_node h.note hactive, chain_of_nowhere h.note_next]
  have hstart : g.bodyOutline [s.id, r.id] s = .ending none := by
    rw [bodyOutline, h.kind_start]
    rfl
  have hnote : g.bodyOutline [p.id, s.id, r.id] p = .ending none := by
    rw [bodyOutline, h.kind_note]
    rfl
  have hloop : g.bodyOutline [s.id, r.id] r = .node p (.ending none) (.ending none) := by
    rw [bodyOutline, h.kind_loop]
    refine (outline_eq hbody).trans ?_
    exact congrArg (Outline.node p · _) hnote
  rw [Lowering.threadOutline, outline_eq hchain]
  exact congr (congrArg (Outline.node s) hstart)
    (congrArg (Outline.node r · _) hloop)

open Draft (label)

/-- The code of the thread. -/
theorem code_eq :
    let counter := Lowering.counterName r.id
    let init := label ("loop_init_" ++ r.id) 2
    let cond := label ("loop_cond_" ++ r.id) 3
    let increment := label ("loop_increment_" ++ r.id) 4
    let note := label (Lowering.blockStem p) 5
    (Lowering.threadOutline g s.id).code 1 Lowering.threadEnd =
      [⟨init, [⟨.declare counter (.literal (.number 0)), some r.id⟩, ⟨.jump cond, some r.id⟩]⟩,
        ⟨cond, [⟨.branch .lt counter (.literal (.number x)) note Lowering.threadEnd, some r.id⟩]⟩,
        ⟨increment, [⟨.add counter (.literal (.number 1)), some r.id⟩, ⟨.jump cond, none⟩]⟩,
        ⟨note, [⟨.call "play_note" [pitchOf p, .literal beats], some p.id⟩,
          ⟨.jump increment, none⟩]⟩,
        ⟨label (Lowering.blockStem s) 6, [⟨.jump init, some s.id⟩]⟩] := by
  rw [h.threadOutline_eq]
  simp only [Outline.code, Outline.entry, Outline.size, Node.blocks, Node.entry, Node.bodyExit,
    h.kind_start, h.kind_loop, h.kind_note, Kind.width, Action.tagged, Action.untagged,
    List.nil_append, List.append_nil, List.cons_append, Nat.reduceAdd]

theorem entry_eq : (Lowering.threadOutline g s.id).entry 1 Lowering.threadEnd =
    label (Lowering.blockStem s) 6 := by
  rw [h.threadOutline_eq]
  simp only [Outline.entry, Outline.size, Node.entry, h.kind_start, h.kind_loop, h.kind_note,
    Kind.width, Nat.reduceAdd]

omit h in
theorem counterName_ne (id : NodeId) : Lowering.counterName id ≠ Music.tempoVariable := by
  intro heq
  have hlength := congrArg String.length heq
  rw [Lowering.counterName, String.length_append] at hlength
  have hshort : Music.tempoVariable.length < "_loop_iter_".length := by decide
  omega

/-- **The compiled thread has the code of a note in a loop.** -/
theorem exists_noteLoop :
    ∃ l : NoteLoop (Lowering.compileThread (Registry.standard Sink).rules g s.id).1,
      l.counter = Lowering.counterName r.id ∧ l.bound = x ∧ l.pitch = pitchOf p ∧
        l.beats = beats := by
  have hentry := (Lowering.compileThread_entry Sink g s.id).trans h.entry_eq
  have hholds : (Lowering.compileThread (Registry.standard Sink).rules g s.id).1.Holds
      (⟨Lowering.threadEnd, []⟩ :: (Lowering.threadOutline g s.id).code 1 Lowering.threadEnd) :=
    fun b hb => Lowering.compileThread_block?_of_mem Sink hb
  rw [h.code_eq] at hholds
  simp only [Routine.holds_cons] at hholds
  obtain ⟨hend, hinit, hcond, hincrement, hnote, hstart, -⟩ := hholds
  rw [← hentry] at hstart
  exact ⟨{
      counter := Lowering.counterName r.id
      bound := x
      pitch := pitchOf p
      beats := beats
      init := label ("loop_init_" ++ r.id) 2
      cond := label ("loop_cond_" ++ r.id) 3
      note := label (Lowering.blockStem p) 5
      increment := label ("loop_increment_" ++ r.id) 4
      exit := Lowering.threadEnd
      counter_ne := counterName_ne r.id
      entry_block := ⟨_, hstart⟩
      init_block := ⟨_, _, hinit⟩
      cond_block := ⟨_, hcond⟩
      note_block := ⟨_, _, hnote⟩
      increment_block := ⟨_, _, hincrement⟩
      exit_block := hend }, rfl, rfl, rfl, rfl⟩

end Graph.RepeatsNote

end TuneBlocks
