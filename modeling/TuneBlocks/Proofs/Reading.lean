import TuneBlocks.Json.Writer
import TuneBlocks.Proofs.Spelling

/-!
# Reading and writing JSON

The reader returns a value for exactly the texts that stand for it, as long as it is not nested too
deep (`read?_eq_some_iff`), so that a text stands for one value at most. The writer spells what it
is given, the decimals of the doubles apart, of which this is asked as `ReadsBack`.
-/

namespace TuneBlocks.Json

/-! ## Nesting -/

mutual

/-- The levels of arrays and objects. -/
def depth : Json → Nat
  | array items => depthItems items + 1
  | object fields => depthFields fields + 1
  | _ => 0

def depthItems : List Json → Nat
  | [] => 0
  | j :: rest => max j.depth (depthItems rest)

def depthFields : List (String × Json) → Nat
  | [] => 0
  | (_, j) :: rest => max j.depth (depthFields rest)

end

def Phrase.depth : Phrase → Nat
  | value j => j.depth
  | items js => depthItems js
  | fields fs => depthFields fs

theorem depthItems_le {js : List Json} {d : Nat} (h : ∀ j ∈ js, j.depth ≤ d) :
    depthItems js ≤ d := by
  induction js with
  | nil => exact Nat.zero_le d
  | cons j js ih =>
    rw [depthItems]
    exact Nat.max_le.2 ⟨h j (by simp), ih fun k hk => h k (by simp [hk])⟩

theorem depthFields_le {fs : List (String × Json)} {d : Nat} (h : ∀ f ∈ fs, f.2.depth ≤ d) :
    depthFields fs ≤ d := by
  induction fs with
  | nil => exact Nat.zero_le d
  | cons f fs ih =>
    rw [depthFields]
    exact Nat.max_le.2 ⟨h f (by simp), ih fun g hg => h g (by simp [hg])⟩

theorem depth_of_number {negative : Bool} {digits fraction : List Char} {exponent : Option Int}
    {j : Json} (h : number negative digits fraction exponent = some j) : j.depth = 0 := by
  unfold number at h
  dsimp only at h
  split at h
  · split at h
    · cases h
      rfl
    · split at h
      · cases h
        rfl
      · cases h
        rfl
  · obtain ⟨x, -, rfl⟩ := Option.map_eq_some_iff.1 h
    rfl

theorem SpellsNumber.depth {j : Json} {s rest : List Char} (h : SpellsNumber j s rest) :
    j.depth = 0 := by
  obtain ⟨-, -, -, -, -, hnumber⟩ := h
  exact depth_of_number hnumber

/-! ## What a spelling begins with -/

theorem skipBlanks_blank {c : Char} (h : isBlank c = true) (s : List Char) :
    skipBlanks (c :: s) = skipBlanks s := by
  simp [skipBlanks, h]

theorem isBlank_of_isDigit {c : Char} (h : c.isDigit = true) : isBlank c = false := by
  cases hc : isBlank c with
  | false => rfl
  | true =>
    simp only [isBlank, Bool.or_eq_true, decide_eq_true_eq] at hc
    rcases hc with ((rfl | rfl) | rfl) | rfl <;> exact absurd h (by decide)

theorem SpellsNumber.skipBlanks_eq {j : Json} {s rest : List Char} (h : SpellsNumber j s rest) :
    skipBlanks s = s := by
  obtain ⟨c, t, rfl, hc⟩ := h.head
  apply skipBlanks_cons
  rcases hc with rfl | hc
  · rfl
  · exact isBlank_of_isDigit hc

/-- Behind the blanks there is something, and it does not close a bracket. -/
theorem Spells.front {p : Phrase} {s rest : List Char} (h : Spells p s rest) :
    ∃ c t, skipBlanks s = c :: t ∧ c ≠ ']' ∧ c ≠ '\x7d' := by
  induction h with
  | blank hc _ ih =>
    obtain ⟨d, t, heq, hd⟩ := ih
    exact ⟨d, t, (skipBlanks_blank hc _).trans heq, hd⟩
  | null => exact ⟨_, _, rfl, by decide, by decide⟩
  | yes => exact ⟨_, _, rfl, by decide, by decide⟩
  | no => exact ⟨_, _, rfl, by decide, by decide⟩
  | number hj =>
    have hskip := hj.skipBlanks_eq
    obtain ⟨c, t, rfl, hc⟩ := hj.head
    refine ⟨c, t, hskip, ?_, ?_⟩
    · rintro rfl
      exact absurd hc (by decide)
    · rintro rfl
      exact absurd hc (by decide)
  | text => exact ⟨_, _, rfl, by decide, by decide⟩
  | emptyArray => exact ⟨_, _, rfl, by decide, by decide⟩
  | array => exact ⟨_, _, rfl, by decide, by decide⟩
  | emptyObject => exact ⟨_, _, rfl, by decide, by decide⟩
  | object => exact ⟨_, _, rfl, by decide, by decide⟩
  | lastItem _ _ ih => exact ih
  | item _ _ _ ih => exact ih
  | lastField => exact ⟨_, _, rfl, by decide, by decide⟩
  | field => exact ⟨_, _, rfl, by decide, by decide⟩

theorem Spells.length_lt {p : Phrase} {s rest : List Char} (h : Spells p s rest) :
    rest.length < s.length := by
  induction h with
  | blank _ _ ih => simp only [List.length_cons]; omega
  | null => simp only [List.length_cons]; omega
  | yes => simp only [List.length_cons]; omega
  | no => simp only [List.length_cons]; omega
  | number hj => exact hj.length_lt
  | text hcs =>
    have := hcs.length_lt
    simp only [List.length_cons]; omega
  | emptyArray hs =>
    have := hs.length_le
    simp only [List.length_cons] at this ⊢; omega
  | array _ ih => simp only [List.length_cons]; omega
  | emptyObject hs =>
    have := hs.length_le
    simp only [List.length_cons] at this ⊢; omega
  | object _ ih => simp only [List.length_cons]; omega
  | lastItem _ hend ih =>
    have := hend.length_le
    simp only [List.length_cons] at this; omega
  | item _ hcomma _ ih ih' =>
    have := hcomma.length_le
    simp only [List.length_cons] at this; omega
  | lastField hcs hcolon _ hend ih =>
    have := hcs.length_lt
    have := hcolon.length_le
    have := hend.length_le
    simp only [List.length_cons] at *; omega
  | field hcs hcolon _ hcomma _ ih ih' =>
    have := hcs.length_lt
    have := hcolon.length_le
    have := hcomma.length_le
    simp only [List.length_cons] at *; omega

/-! ## The reader against the grammar -/

/-- The part of the reader for a phrase returns it. -/
def Reads (bound depth : Nat) (s rest : List Char) : Phrase → Prop
  | .value j => readValue bound depth s = some (j, rest)
  | .items js => readItems bound depth s = some (js, rest)
  | .fields fs => readFields bound depth s = some (fs, rest)

theorem readValue_congr {s t : List Char} (h : skipBlanks s = skipBlanks t) (bound depth : Nat) :
    readValue bound depth s = readValue bound depth t := by
  cases bound with
  | zero => rfl
  | succ bound => rw [readValue, readValue, h]

theorem Reads.congr {bound depth : Nat} {s t rest : List Char} {p : Phrase}
    (h : Reads bound depth t rest p) (heq : skipBlanks s = skipBlanks t) :
    Reads bound depth s rest p := by
  cases p with
  | value j => exact (readValue_congr heq bound depth).trans h
  | items js =>
    cases bound with
    | zero => exact h
    | succ bound =>
      unfold Reads at h ⊢
      rw [readItems] at h ⊢
      rwa [readValue_congr heq bound depth]
  | fields fs =>
    cases bound with
    | zero => exact h
    | succ bound =>
      unfold Reads at h ⊢
      rw [readFields] at h ⊢
      rwa [heq]

theorem readValue_number {j : Json} {s rest : List Char} (h : SpellsNumber j s rest)
    (bound depth : Nat) : readValue (bound + 1) depth s = readNumber s := by
  have hskip := h.skipBlanks_eq
  obtain ⟨c, t, rfl, hc⟩ := h.head
  rw [readValue, hskip]
  split
  iterate 6
    · next heq =>
      cases heq
      exact absurd hc (by decide)
  · rfl

theorem readValue_emptyArray {s rest : List Char} (h : Blanks s (']' :: rest))
    (bound depth : Nat) :
    readValue (bound + 1) (depth + 1) ('[' :: s) = some (array [], rest) := by
  rw [readValue, skipBlanks_cons rfl]
  simp only [h.skipBlanks_cons rfl]

theorem readValue_emptyObject {s rest : List Char} (h : Blanks s ('\x7d' :: rest))
    (bound depth : Nat) :
    readValue (bound + 1) (depth + 1) ('\x7b' :: s) = some (object [], rest) := by
  rw [readValue, skipBlanks_cons rfl]
  simp only [h.skipBlanks_cons rfl]

theorem readValue_array {js : List Json} {s rest : List Char} (h : Spells (.items js) s rest)
    {bound depth : Nat} (hread : Reads bound depth s rest (.items js)) :
    readValue (bound + 1) (depth + 1) ('[' :: s) = some (array js, rest) := by
  obtain ⟨c, t, hfront, hc, -⟩ := h.front
  have hread' : Reads bound depth (c :: t) rest (.items js) :=
    hread.congr (by rw [← hfront, skipBlanks_skipBlanks])
  rw [readValue, skipBlanks_cons rfl]
  simp only [hfront]
  split
  · contradiction
  · next heq _ =>
    cases heq
    exact absurd rfl hc
  · next heq _ =>
    cases heq
    rw [show readItems bound depth (c :: t) = some (js, rest) from hread']
    rfl

theorem readValue_object {fs : List (String × Json)} {s rest : List Char}
    (h : Spells (.fields fs) s rest) {bound depth : Nat}
    (hread : Reads bound depth s rest (.fields fs)) :
    readValue (bound + 1) (depth + 1) ('\x7b' :: s) = some (object fs, rest) := by
  obtain ⟨c, t, hfront, -, hc⟩ := h.front
  have hread' : Reads bound depth (c :: t) rest (.fields fs) :=
    hread.congr (by rw [← hfront, skipBlanks_skipBlanks])
  rw [readValue, skipBlanks_cons rfl]
  simp only [hfront]
  split
  · contradiction
  · next heq _ =>
    cases heq
    exact absurd rfl hc
  · next heq _ =>
    cases heq
    rw [show readFields bound depth (c :: t) = some (fs, rest) from hread']
    rfl

theorem ends_of_mark {s rest : List Char} {c : Char} (h : Blanks s (c :: rest))
    (hc : c.isDigit = false ∧ c ≠ '.' ∧ c ≠ 'e' ∧ c ≠ 'E') : Ends s :=
  .of_blanks h (.cons hc)

/-- A bound on the steps that the reader takes for a phrase at the front of a text, after the
first. -/
def Phrase.steps (s : List Char) : Phrase → Nat
  | value _ => 2 * s.length
  | _ => 2 * s.length + 1

theorem Phrase.steps_le_steps_cons (p : Phrase) (c : Char) (s : List Char) :
    p.steps s ≤ p.steps (c :: s) := by
  cases p <;> simp only [steps, List.length_cons] <;> omega

/-- Enough steps and enough depth read what is spelled. -/
theorem Spells.reads {p : Phrase} {s rest : List Char} (h : Spells p s rest) :
    Ends rest → ∀ bound depth, p.steps s ≤ bound → p.depth ≤ depth →
      Reads (bound + 1) depth s rest p := by
  -- behind a value inside a bracket comes a mark, so that a numeral ends there as well
  induction h with
  | @blank p c s _ hc _ ih =>
    intro hrest bound depth hbound hdepth
    have hle := p.steps_le_steps_cons c s
    exact (ih hrest bound depth (by omega) hdepth).congr (skipBlanks_blank hc s)
  | null => exact fun _ _ _ _ _ => rfl
  | yes => exact fun _ _ _ _ _ => rfl
  | no => exact fun _ _ _ _ _ => rfl
  | number hj =>
    intro hrest bound depth _ _
    exact (readValue_number hj bound depth).trans (hj.read hrest)
  | text hcs =>
    intro _ bound depth hbound _
    simp only [Phrase.steps, List.length_cons] at hbound
    show readValue (bound + 1) depth _ = _
    rw [readValue, skipBlanks_cons rfl]
    simp only [hcs.readText (show _ ≤ bound by omega), Option.map_some]
  | emptyArray hs =>
    intro _ bound depth _ hdepth
    obtain ⟨depth, rfl⟩ := Nat.exists_eq_add_of_le' hdepth
    exact readValue_emptyArray hs bound _
  | array hjs ih =>
    intro hrest bound depth hbound hdepth
    simp only [Phrase.steps, List.length_cons] at hbound ih
    obtain ⟨bound, rfl⟩ : ∃ b, bound = b + 1 := ⟨bound - 1, by omega⟩
    have hlt : depthItems _ < depth := hdepth
    obtain ⟨k, rfl⟩ := Nat.exists_eq_add_of_lt hlt
    exact readValue_array hjs (ih hrest bound _ (by omega) (Nat.le_add_right _ k))
  | emptyObject hs =>
    intro _ bound depth _ hdepth
    obtain ⟨depth, rfl⟩ := Nat.exists_eq_add_of_le' hdepth
    exact readValue_emptyObject hs bound _
  | object hfs ih =>
    intro hrest bound depth hbound hdepth
    simp only [Phrase.steps, List.length_cons] at hbound ih
    obtain ⟨bound, rfl⟩ : ∃ b, bound = b + 1 := ⟨bound - 1, by omega⟩
    have hlt : depthFields _ < depth := hdepth
    obtain ⟨k, rfl⟩ := Nat.exists_eq_add_of_lt hlt
    exact readValue_object hfs (ih hrest bound _ (by omega) (Nat.le_add_right _ k))
  | lastItem _ hend ih =>
    intro _ bound depth hbound hdepth
    simp only [Phrase.steps] at hbound ih
    obtain ⟨bound, rfl⟩ : ∃ b, bound = b + 1 := ⟨bound - 1, by omega⟩
    have hj := ih (ends_of_mark hend (by decide)) bound depth (by omega)
      (Nat.max_le.1 hdepth).1
    unfold Reads at hj ⊢
    rw [readItems]
    simp only [hj, Option.bind_eq_bind, Option.bind_some, hend.skipBlanks_cons rfl, Option.pure_def]
  | item hj hcomma _ ih ih' =>
    intro hrest bound depth hbound hdepth
    have hlt := hj.length_lt
    have hle := hcomma.length_le
    simp only [Phrase.steps, List.length_cons] at hbound hle ih ih'
    obtain ⟨bound, rfl⟩ : ∃ b, bound = b + 1 := ⟨bound - 1, by omega⟩
    have hj := ih (ends_of_mark hcomma (by decide)) bound depth (by omega)
      (Nat.max_le.1 hdepth).1
    have hjs := ih' hrest bound depth (by omega) (Nat.max_le.1 hdepth).2
    unfold Reads at hj hjs ⊢
    rw [readItems]
    simp only [hj, hjs, Option.bind_eq_bind, Option.bind_some, hcomma.skipBlanks_cons rfl,
      Option.pure_def]
  | lastField hcs hcolon _ hend ih =>
    intro _ bound depth hbound hdepth
    have hlt := hcs.length_lt
    have hle := hcolon.length_le
    simp only [Phrase.steps, List.length_cons] at hbound hle ih
    obtain ⟨bound, rfl⟩ : ∃ b, bound = b + 1 := ⟨bound - 1, by omega⟩
    have hj := ih (ends_of_mark hend (by decide)) bound depth (by omega)
      (Nat.max_le.1 hdepth).1
    have htext := hcs.readText (show _ ≤ bound + 1 by omega)
    unfold Reads at hj ⊢
    rw [readFields]
    simp only [skipBlanks_cons (show isBlank '"' = false from rfl), htext, hj, Option.bind_eq_bind,
      Option.bind_some, hcolon.skipBlanks_cons rfl, hend.skipBlanks_cons rfl, Option.pure_def]
  | field hcs hcolon hj hcomma _ ih ih' =>
    intro hrest bound depth hbound hdepth
    have hlt := hcs.length_lt
    have hle := hcolon.length_le
    have hlt' := hj.length_lt
    have hle' := hcomma.length_le
    simp only [Phrase.steps, List.length_cons] at hbound hle hle' ih ih'
    obtain ⟨bound, rfl⟩ : ∃ b, bound = b + 1 := ⟨bound - 1, by omega⟩
    have hj := ih (ends_of_mark hcomma (by decide)) bound depth (by omega)
      (Nat.max_le.1 hdepth).1
    have hfs := ih' hrest bound depth (by omega) (Nat.max_le.1 hdepth).2
    have htext := hcs.readText (show _ ≤ bound + 1 by omega)
    unfold Reads at hj hfs ⊢
    rw [readFields]
    simp only [skipBlanks_cons (show isBlank '"' = false from rfl), htext, hj, hfs,
      Option.bind_eq_bind, Option.bind_some, hcolon.skipBlanks_cons rfl, hcomma.skipBlanks_cons rfl,
      Option.pure_def]

/-- What the reader returns within a bound is spelled there, and not too deep. -/
def ReadsOnlySpelled (bound : Nat) : Prop :=
  ∀ p depth s rest, Reads bound depth s rest p → Spells p s rest ∧ p.depth ≤ depth

section Step

variable {bound : Nat} (ih : ReadsOnlySpelled bound) {depth : Nat} {s rest : List Char}

include ih

theorem ReadsOnlySpelled.value {j : Json} (h : readValue (bound + 1) depth s = some (j, rest)) :
    Spells (.value j) s rest ∧ j.depth ≤ depth := by
  have hblanks := blanks_skipBlanks s
  rw [readValue] at h
  split at h
  · next heq =>
    cases h
    rw [heq] at hblanks
    exact ⟨.of_blanks hblanks (.null _), Nat.zero_le _⟩
  · next heq =>
    cases h
    rw [heq] at hblanks
    exact ⟨.of_blanks hblanks (.yes _), Nat.zero_le _⟩
  · next heq =>
    cases h
    rw [heq] at hblanks
    exact ⟨.of_blanks hblanks (.no _), Nat.zero_le _⟩
  · next heq =>
    obtain ⟨⟨k, t⟩, htext, hj⟩ := Option.map_eq_some_iff.1 h
    cases hj
    obtain ⟨cs, rfl, hcs⟩ := spellsChars_of_readText htext
    rw [heq] at hblanks
    exact ⟨.of_blanks hblanks (.text hcs), Nat.zero_le _⟩
  · next t heq =>
    rw [heq] at hblanks
    split at h
    · cases h
    · next hdepth hend =>
      cases h
      exact ⟨.of_blanks hblanks (.emptyArray (blanks_of_skipBlanks hend)),
        Nat.pos_of_ne_zero hdepth⟩
    · obtain ⟨⟨js, u⟩, hitems, hj⟩ := Option.map_eq_some_iff.1 h
      cases hj
      obtain ⟨hspells, hle⟩ := ih (.items js) _ _ _ hitems
      exact ⟨.of_blanks hblanks (.array (.of_blanks (blanks_skipBlanks t) hspells)),
        Nat.succ_le_succ hle⟩
  · next t heq =>
    rw [heq] at hblanks
    split at h
    · cases h
    · next hdepth hend =>
      cases h
      exact ⟨.of_blanks hblanks (.emptyObject (blanks_of_skipBlanks hend)),
        Nat.pos_of_ne_zero hdepth⟩
    · obtain ⟨⟨fs, u⟩, hfields, hj⟩ := Option.map_eq_some_iff.1 h
      cases hj
      obtain ⟨hspells, hle⟩ := ih (.fields fs) _ _ _ hfields
      exact ⟨.of_blanks hblanks (.object (.of_blanks (blanks_skipBlanks t) hspells)),
        Nat.succ_le_succ hle⟩
  · have hj := spellsNumber_of_readNumber h
    exact ⟨.of_blanks hblanks (.number hj), hj.depth ▸ Nat.zero_le _⟩

theorem ReadsOnlySpelled.items {js : List Json}
    (h : readItems (bound + 1) depth s = some (js, rest)) :
    Spells (.items js) s rest ∧ depthItems js ≤ depth := by
  rw [readItems] at h
  simp only [Option.bind_eq_bind, Option.bind_eq_some_iff] at h
  obtain ⟨⟨j, t⟩, hj, h⟩ := h
  obtain ⟨hspells, hle⟩ := ih (.value j) _ _ _ hj
  split at h
  · next heq =>
    have hcomma := blanks_of_skipBlanks heq
    simp only [Option.bind_eq_some_iff, Option.pure_def, Option.some.injEq, Prod.mk.injEq] at h
    obtain ⟨⟨js, u⟩, hjs, rfl, rfl⟩ := h
    obtain ⟨hspells', hle'⟩ := ih (.items js) _ _ _ hjs
    exact ⟨.item hspells hcomma hspells', Nat.max_le.2 ⟨hle, hle'⟩⟩
  · next heq =>
    cases h
    exact ⟨.lastItem hspells (blanks_of_skipBlanks heq),
      Nat.max_le.2 ⟨hle, Nat.zero_le _⟩⟩
  · cases h

theorem ReadsOnlySpelled.fields {fs : List (String × Json)}
    (h : readFields (bound + 1) depth s = some (fs, rest)) :
    Spells (.fields fs) s rest ∧ depthFields fs ≤ depth := by
  rw [readFields] at h
  split at h
  · next heq =>
    have hquote := blanks_of_skipBlanks heq
    simp only [Option.bind_eq_bind, Option.bind_eq_some_iff] at h
    obtain ⟨⟨k, t⟩, htext, h⟩ := h
    obtain ⟨cs, rfl, hcs⟩ := spellsChars_of_readText htext
    dsimp only at h
    split at h
    · next heq =>
      have hcolon := blanks_of_skipBlanks heq
      simp only [Option.bind_eq_some_iff] at h
      obtain ⟨⟨j, u⟩, hj, h⟩ := h
      obtain ⟨hspells, hle⟩ := ih (.value j) _ _ _ hj
      dsimp only at h
      split at h
      · next heq =>
        have hcomma := blanks_of_skipBlanks heq
        simp only [Option.bind_eq_some_iff, Option.pure_def, Option.some.injEq,
          Prod.mk.injEq] at h
        obtain ⟨⟨fs, v⟩, hfs, rfl, rfl⟩ := h
        obtain ⟨hspells', hle'⟩ := ih (.fields fs) _ _ _ hfs
        exact ⟨.of_blanks hquote (.field hcs hcolon hspells hcomma hspells'),
          Nat.max_le.2 ⟨hle, hle'⟩⟩
      · next heq =>
        cases h
        exact ⟨.of_blanks hquote (.lastField hcs hcolon hspells (blanks_of_skipBlanks heq)),
          Nat.max_le.2 ⟨hle, Nat.zero_le _⟩⟩
      · cases h
    · cases h
  · cases h

end Step

theorem readsOnlySpelled (bound : Nat) : ReadsOnlySpelled bound := by
  -- every part of the reader calls the others with one step less
  induction bound with
  | zero =>
    intro p depth s rest h
    cases p <;> cases h
  | succ bound ih =>
    intro p depth s rest h
    cases p with
    | value j => exact ih.value h
    | items js => exact ih.items h
    | fields fs => exact ih.fields h

theorem Text.readValue {j : Json} {s : List Char} (h : Text j s) {depth : Nat}
    (hdepth : j.depth ≤ depth) :
    ∃ rest, readValue (2 * s.length + 1) depth s = some (j, rest) ∧ skipBlanks rest = [] := by
  obtain ⟨rest, hj, hrest⟩ := h
  exact ⟨rest, hj.reads (.of_blanks hrest .nil) _ depth (Nat.le_refl _) hdepth,
    hrest.skipBlanks_eq⟩

theorem text_of_readFirst {j : Json} {s rest : List Char} (h : readFirst s = some (j, rest))
    (hrest : skipBlanks rest = []) : Text j s ∧ j.depth ≤ depthLimit := by
  obtain ⟨hj, hdepth⟩ := readsOnlySpelled _ (.value j) _ _ _ h
  exact ⟨⟨rest, hj, blanks_of_skipBlanks hrest⟩, hdepth⟩

/-- A text stands for at most one value. -/
theorem Text.unique {j j' : Json} {s : List Char} (h : Text j s) (h' : Text j' s) : j = j' := by
  obtain ⟨rest, hread, -⟩ := h.readValue (Nat.le_max_left j.depth j'.depth)
  obtain ⟨rest', hread', -⟩ := h'.readValue (Nat.le_max_right j.depth j'.depth)
  rw [hread] at hread'
  cases hread'
  rfl

/-- The reader accepts exactly the texts that stand for a value, up to the limit on its depth. -/
theorem read?_eq_some_iff {s : String} {j : Json} :
    read? s = some j ↔ Text j s.toList ∧ j.depth ≤ depthLimit := by
  constructor
  · intro h
    unfold read? at h
    split at h
    · next hfirst =>
      split at h
      · next hrest =>
        cases h
        exact text_of_readFirst hfirst (List.isEmpty_iff.1 hrest)
      · cases h
    · cases h
  · rintro ⟨h, hdepth⟩
    obtain ⟨rest, hfirst, hrest⟩ := h.readValue hdepth
    unfold read? readFirst
    simp [hfirst, hrest]

/-! ## The writer -/

theorem hexValue_digitChar {n : Nat} (h : n < 16) : hexValue (Nat.digitChar n) = some n := by
  have key : ∀ m : Fin 16, hexValue (Nat.digitChar m) = some m := by decide
  exact key ⟨n, h⟩

theorem spellsChar_escape (c : Char) (rest : List Char) :
    SpellsChar c (escape c ++ rest) rest := by
  unfold escape
  repeat' split
  iterate 7
    · next h =>
      subst h
      exact .short _ (by decide)
  · next h =>
    have hlt : c.toNat < 32 := h
    have hunit : Unit16 (((0 * 16 + 0) * 16 + c.toNat / 16) * 16 + c.toNat % 16)
        ('0' :: '0' :: Nat.digitChar (c.toNat / 16) :: Nat.digitChar (c.toNat % 16) :: rest) rest :=
      .mk rest rfl rfl (hexValue_digitChar (by omega)) (hexValue_digitChar (by omega))
    have hvalue : ((0 * 16 + 0) * 16 + c.toNat / 16) * 16 + c.toNat % 16 = c.toNat := by omega
    rw [hvalue] at hunit
    have := SpellsChar.unit hunit (.inl (by omega))
    rwa [Char.ofNat_toNat] at this
  · next hquote hslash _ _ _ _ _ hc => exact .plain rest hc hquote hslash

theorem spellsChars_escape (cs rest : List Char) :
    SpellsChars cs (cs.flatMap escape ++ '"' :: rest) rest := by
  induction cs with
  | nil => exact .close rest
  | cons c cs ih =>
    rw [List.flatMap_cons, List.append_assoc]
    exact .cons (spellsChar_escape c _) ih

theorem spells_writeText (k : String) (rest : List Char) :
    ∃ s, writeText k ++ rest = '"' :: s ∧ SpellsChars k.toList s rest :=
  ⟨k.toList.flatMap escape ++ '"' :: rest, by simp [writeText], spellsChars_escape _ _⟩

theorem text_text (k : String) : Text (.text k) (write (.text k)) := by
  obtain ⟨s, hs, hk⟩ := spells_writeText k []
  rw [List.append_nil] at hs
  have := Spells.text hk
  rw [String.ofList_toList, ← hs] at this
  exact ⟨[], this, .refl []⟩

theorem text_bool (b : Bool) : Text (.bool b) (write (.bool b)) := by
  cases b with
  | true => exact ⟨[], .yes [], .refl []⟩
  | false => exact ⟨[], .no [], .refl []⟩

theorem spells_writeItems {js : List Json} (hne : js ≠ []) (h : ∀ j ∈ js, Text j (write j))
    (rest : List Char) : Spells (.items js) (writeItems js ++ ']' :: rest) rest := by
  induction js with
  | nil => exact absurd rfl hne
  | cons j js ih =>
    have hj := h j (by simp)
    cases js with
    | nil =>
      obtain ⟨t, hspells, ht⟩ := hj.append (']' :: rest)
      exact .lastItem hspells ht
    | cons k js =>
      have hjs := ih (by simp) fun l hl => h l (by simp [hl])
      obtain ⟨t, hspells, ht⟩ := hj.append (',' :: (writeItems (k :: js) ++ ']' :: rest))
      have := Spells.item hspells ht hjs
      simpa [writeItems] using this

theorem text_array {js : List Json} (h : ∀ j ∈ js, Text j (write j)) :
    Text (.array js) (write (.array js)) := by
  refine ⟨[], ?_, .refl []⟩
  rw [write]
  cases js with
  | nil => exact .emptyArray (.refl _)
  | cons j js => exact .array (spells_writeItems (by simp) h [])

theorem spells_writeFields {fs : List (String × Json)} (hne : fs ≠ [])
    (h : ∀ f ∈ fs, Text f.2 (write f.2)) (rest : List Char) :
    Spells (.fields fs) (writeFields fs ++ '\x7d' :: rest) rest := by
  induction fs with
  | nil => exact absurd rfl hne
  | cons f fs ih =>
    obtain ⟨k, j⟩ := f
    have hj : Text j (write j) := h (k, j) (by simp)
    cases fs with
    | nil =>
      obtain ⟨t, hspells, ht⟩ := hj.append ('\x7d' :: rest)
      obtain ⟨s, hs, hk⟩ := spells_writeText k (':' :: (write j ++ '\x7d' :: rest))
      have := Spells.lastField hk (.refl _) hspells ht
      rwa [String.ofList_toList, ← hs, ← List.cons_append, ← List.append_assoc] at this
    | cons g fs =>
      have hfs := ih (by simp) fun l hl => h l (by simp [hl])
      obtain ⟨t, hspells, ht⟩ := hj.append (',' :: (writeFields (g :: fs) ++ '\x7d' :: rest))
      obtain ⟨s, hs, hk⟩ := spells_writeText k
        (':' :: (write j ++ ',' :: (writeFields (g :: fs) ++ '\x7d' :: rest)))
      have := Spells.field hk (.refl _) hspells ht hfs
      rw [String.ofList_toList, ← hs] at this
      simpa [writeFields] using this

theorem text_object {fs : List (String × Json)} (h : ∀ f ∈ fs, Text f.2 (write f.2)) :
    Text (.object fs) (write (.object fs)) := by
  refine ⟨[], ?_, .refl []⟩
  rw [write]
  cases fs with
  | nil => exact .emptyObject (.refl _)
  | cons f fs => exact .object (spells_writeFields (by simp) h [])

theorem toList_render (j : Json) : (render j).toList = write j := String.toList_ofList

/-- The decimal that is written for a double is read as that double. Where the reader's scaling
rounds twice it is not. -/
def ReadsBack (x : Float) : Prop := read? (render (.real x)) = some (.real x)

def real? : Json → Option Float
  | real x => some x
  | _ => none

instance (x : Float) : Decidable (ReadsBack x) :=
  decidable_of_iff ((read? (render (.real x))).bind real? = some x) <| by
    unfold ReadsBack
    constructor
    · intro h
      obtain ⟨j, hread, hreal⟩ := Option.bind_eq_some_iff.1 h
      cases j <;> cases hreal
      exact hread
    · intro h
      rw [h]
      rfl

theorem ReadsBack.text {x : Float} (h : ReadsBack x) : Text (.real x) (write (.real x)) := by
  have := (read?_eq_some_iff.1 h).1
  rwa [toList_render] at this

end TuneBlocks.Json
