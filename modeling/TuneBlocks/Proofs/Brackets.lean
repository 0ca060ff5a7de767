import TuneBlocks.Thread.Memory

/-!
# Brackets of scopes

What a thread does between entering a scope and leaving it can enter and leave further scopes, hide
variables and show them again. Scopes are numbered from the outside, so that each keeps its number
meanwhile. An operation changes a scope around the innermost one in one way only: an assignment to a
variable whose innermost binding is there (`scope?_apply`). So after a bracket the scopes around it
bind what they bound before, and a binding has changed exactly by the assignments that found it
(`brackets_exact`).
-/

namespace TuneBlocks

/-- An operation on the scopes of a memory. -/
inductive ScopeOp where
  | push
  | pop
  | declare (name : String) (v : Value)
  | assign (name : String) (v : Value)
deriving DecidableEq

namespace Memory

/-- The memory after an operation; the last scope is never left. -/
def apply (m : Memory) : ScopeOp → Memory
  | .push => m.push
  | .pop => m.pop?.getD m
  | .declare name v => m.declare name v
  | .assign name v => m.assign name v

/-- The memory after some operations. -/
def applyAll (m : Memory) (ops : List ScopeOp) : Memory := ops.foldl apply m

/-- The scope with a number, counted from the outside. -/
def scope? (m : Memory) (k : Nat) : Option Scope := m.scopes.reverse[k]?

/-- What the scope with a number binds a variable to. -/
def binding? (m : Memory) (k : Nat) (x : String) : Option Value := (m.scope? k).bind (·.get? x)

/-- The scope with this number holds the innermost binding of the variable: it binds the variable,
and no scope inside it does. -/
def HeldAt (m : Memory) (x : String) (k : Nat) : Prop :=
  ∃ inside s around, m.scopes = inside ++ s :: around ∧ around.length = k ∧ x ∈ s.keys ∧
    ∀ s' ∈ inside, x ∉ s'.keys

variable {m : Memory} {x : String} {k : Nat} {v : Value}

/-- The number of the innermost of some scopes that binds a variable. -/
def holder? (x : String) : List Scope → Option Nat
  | [] => none
  | s :: around => if x ∈ s.keys then some around.length else holder? x around

theorem heldAt_iff : m.HeldAt x k ↔ holder? x m.scopes = some k := by
  unfold HeldAt
  induction m.scopes with
  | nil => simp [holder?]
  | cons s rest ih =>
    rw [holder?]
    split
    · rename_i hs
      constructor
      · rintro ⟨inside, s', around, hscopes, rfl, -, hinside⟩
        cases inside with
        | nil =>
          cases hscopes
          rfl
        | cons s₁ inside =>
          cases hscopes
          exact absurd hs (hinside s List.mem_cons_self)
      · intro h
        exact ⟨[], s, rest, rfl, Option.some.inj h, hs, by simp⟩
    · rename_i hs
      rw [← ih]
      constructor
      · rintro ⟨inside, s', around, hscopes, hk, hs', hinside⟩
        cases inside with
        | nil =>
          cases hscopes
          exact absurd hs' hs
        | cons s₁ inside =>
          cases hscopes
          exact ⟨inside, s', around, rfl, hk, hs', (List.forall_mem_cons.1 hinside).2⟩
      · rintro ⟨inside, s', around, rfl, hk, hs', hinside⟩
        exact ⟨s :: inside, s', around, rfl, hk, hs', List.forall_mem_cons.2 ⟨hs, hinside⟩⟩

instance : Decidable (m.HeldAt x k) := decidable_of_iff _ heldAt_iff.symm

/-- What an operation assigns to a variable if the innermost binding is in the scope with this
number. -/
def foundBy (m : Memory) (k : Nat) (x : String) : ScopeOp → Option Value
  | .assign y v => if y = x ∧ m.HeldAt x k then some v else none
  | _ => none

/-- The values assigned to a variable, each at a time when its innermost binding was in the scope
with this number. -/
def found (m : Memory) (k : Nat) (x : String) : List ScopeOp → List Value
  | [] => []
  | op :: ops => (m.foundBy k x op).toList ++ (m.apply op).found k x ops

/-! ## One operation -/

theorem scope?_of_scopes {inside around : List Scope} {s : Scope}
    (h : m.scopes = inside ++ s :: around) : m.scope? around.length = some s := by
  rw [scope?, h, List.reverse_append, List.reverse_cons, List.append_assoc,
    List.getElem?_append_right (by simp), List.length_reverse, Nat.sub_self]
  rfl

/-- The scopes around the innermost one are numbered without it. -/
theorem scope?_eq_outer (h : k + 1 < m.depth) : m.scope? k = m.outer.reverse[k]? := by
  rw [scope?, scopes, List.reverse_cons, List.getElem?_append_left]
  simpa [depth, scopes] using h

theorem pop?_of_lt (h : 1 < m.depth) : ∃ m', m.pop? = some m' ∧ m'.scopes = m.outer := by
  unfold pop?
  cases houter : m.outer with
  | nil => simp [depth, scopes, houter] at h
  | cons s rest => exact ⟨_, rfl, rfl⟩

theorem rebind?_of_inside {inside around : List Scope} {s : Scope} (hs : x ∈ s.keys)
    (hinside : ∀ s' ∈ inside, x ∉ s'.keys) (v : Value) :
    rebind? x v (inside ++ s :: around) = some (inside ++ s.insert x v :: around) := by
  induction inside with
  | nil => rw [List.nil_append, rebind?, if_pos (Keyed.contains_iff.2 hs)]; rfl
  | cons s' inside ih =>
    obtain ⟨hfirst, hrest⟩ := List.forall_mem_cons.1 hinside
    rw [List.cons_append, rebind?, if_neg (fun h => hfirst (Keyed.contains_iff.1 h)), ih hrest]
    rfl

theorem rebind?_eq_some {scopes scopes' : List Scope} (h : rebind? x v scopes = some scopes') :
    ∃ inside s around, scopes = inside ++ s :: around ∧ x ∈ s.keys ∧
      (∀ s' ∈ inside, x ∉ s'.keys) ∧ scopes' = inside ++ s.insert x v :: around := by
  induction scopes generalizing scopes' with
  | nil => cases h
  | cons s rest ih =>
    unfold rebind? at h
    split at h
    · cases h
      exact ⟨[], s, rest, rfl, Keyed.contains_iff.1 ‹_›, by simp, rfl⟩
    · rename_i hfirst
      obtain ⟨rest', hrest, rfl⟩ := Option.map_eq_some_iff.1 h
      obtain ⟨inside, s', around, rfl, hs', hinside, rfl⟩ := ih hrest
      have hs : x ∉ s.keys := fun hx => hfirst (Keyed.contains_iff.2 hx)
      exact ⟨s :: inside, s', around, rfl, hs', List.forall_mem_cons.2 ⟨hs, hinside⟩, rfl⟩

theorem scope?_push (h : k < m.depth) : m.push.scope? k = m.scope? k :=
  scope?_eq_outer (Nat.succ_lt_succ h)

theorem HeldAt.lt_depth (h : m.HeldAt x k) : k < m.depth := by
  obtain ⟨inside, s, around, hscopes, rfl, -, -⟩ := h
  rw [depth, hscopes, List.length_append, List.length_cons]
  omega

theorem HeldAt.exists_scope (h : m.HeldAt x k) : ∃ s, m.scope? k = some s ∧ x ∈ s.keys := by
  obtain ⟨inside, s, around, hscopes, rfl, hx, -⟩ := h
  exact ⟨s, scope?_of_scopes hscopes, hx⟩

/-- An assignment changes the scope that holds the innermost binding. -/
theorem HeldAt.scope?_assign (h : m.HeldAt x k) (v : Value) :
    (m.assign x v).scope? k = (m.scope? k).map (·.insert x v) := by
  obtain ⟨inside, s, around, hscopes, rfl, hx, hinside⟩ := h
  have hassign : (m.assign x v).scopes = inside ++ s.insert x v :: around := by
    rw [scopes_assign, hscopes, rebind?_of_inside hx hinside, Option.getD_some]
  rw [scope?_of_scopes hassign, scope?_of_scopes hscopes, Option.map_some]

theorem getElem?_reverse_congr (inside around : List Scope) (s s' : Scope)
    (h : k ≠ around.length) :
    (inside ++ s :: around).reverse[k]? = (inside ++ s' :: around).reverse[k]? := by
  simp only [List.reverse_append, List.reverse_cons, List.append_assoc, List.singleton_append]
  rcases Nat.lt_or_gt_of_ne h with hlt | hgt
  · have hlength : k < around.reverse.length := by simpa using hlt
    rw [List.getElem?_append_left hlength, List.getElem?_append_left hlength]
  · obtain ⟨j, rfl⟩ := Nat.exists_eq_add_of_lt hgt
    simp [List.getElem?_append_right, Nat.add_assoc]

/-- **What an operation does to a scope around the innermost one**: nothing, unless it is an
assignment to a variable whose innermost binding is there. -/
theorem scope?_apply {op : ScopeOp} (h : k + 1 < m.depth) (h' : k + 1 < (m.apply op).depth) :
    (∃ x v, op = .assign x v ∧ m.HeldAt x k ∧
        (m.apply op).scope? k = (m.scope? k).map (·.insert x v)) ∨
      (∀ x v, op = .assign x v → ¬ m.HeldAt x k) ∧ (m.apply op).scope? k = m.scope? k := by
  have hdeclare : ∀ {x v}, (m.declare x v).scope? k = m.scope? k := by
    intro x v
    rw [scope?_eq_outer h, scope?_eq_outer (m := m.declare x v) h]
    rfl
  cases op with
  | push => exact .inr ⟨fun _ _ hop => ScopeOp.noConfusion hop, scope?_eq_outer h'⟩
  | pop =>
    obtain ⟨m', hpop, hscopes⟩ := pop?_of_lt (Nat.lt_of_le_of_lt (Nat.le_add_left 1 k) h)
    refine .inr ⟨fun _ _ hop => ScopeOp.noConfusion hop, ?_⟩
    rw [apply, hpop, scope?_eq_outer h]
    exact congrArg (·.reverse[k]?) hscopes
  | declare x v => exact .inr ⟨fun _ _ hop => ScopeOp.noConfusion hop, hdeclare⟩
  | assign x v =>
    by_cases hheld : m.HeldAt x k
    · exact .inl ⟨x, v, rfl, hheld, hheld.scope?_assign v⟩
    · refine .inr ⟨fun y u hop => by cases hop; exact hheld, ?_⟩
      cases hrebind : rebind? x v m.scopes with
      | none =>
        rw [← hdeclare (x := x) (v := v), apply, scope?, scopes_assign, hrebind]
        rfl
      | some scopes' =>
        obtain ⟨inside, s, around, hscopes, hx, hinside, rfl⟩ := rebind?_eq_some hrebind
        have hk : k ≠ around.length :=
          fun hk => hheld ⟨inside, s, around, hscopes, hk.symm, hx, hinside⟩
        rw [apply, scope?, scopes_assign, hrebind, Option.getD_some, scope?, hscopes]
        exact getElem?_reverse_congr inside around _ s hk

/-- The names that a scope binds stay. -/
theorem keys_apply {op : ScopeOp} (h : k + 1 < m.depth) (h' : k + 1 < (m.apply op).depth) :
    ((m.apply op).scope? k).map Keyed.keys = (m.scope? k).map Keyed.keys := by
  rcases scope?_apply h h' with ⟨x, v, -, hheld, hchanged⟩ | ⟨-, hsame⟩
  · obtain ⟨s, hs, hx⟩ := hheld.exists_scope
    rw [hchanged, hs, Option.map_some, Option.map_some, Option.map_some, Keyed.keys_insert,
      if_pos hx]
  · rw [hsame]

/-- The value of a binding stays, unless an assignment finds it. -/
theorem binding?_apply {op : ScopeOp} (h : k + 1 < m.depth) (h' : k + 1 < (m.apply op).depth)
    (x : String) : (m.apply op).binding? k x = (m.foundBy k x op).or (m.binding? k x) := by
  rcases scope?_apply h h' with ⟨y, v, rfl, hheld, hchanged⟩ | ⟨hmissed, hsame⟩
  · obtain ⟨s, hs, -⟩ := hheld.exists_scope
    rw [binding?, hchanged, binding?, hs, Option.map_some, Option.bind_some, Option.bind_some,
      Keyed.get?_insert, foundBy]
    by_cases hx : x = y
    · subst hx
      simp [hheld]
    · simp [hx, Ne.symm hx]
  · have hnone : m.foundBy k x op = none := by
      cases op with
      | assign y v =>
        rw [foundBy, if_neg]
        rintro ⟨rfl, hheld⟩
        exact hmissed y v rfl hheld
      | _ => rfl
    rw [hnone, Option.none_or, binding?, hsame, binding?]

/-! ## Many operations -/

/-- After no part of the operations is the depth this or less. -/
def StaysAbove (d : Nat) (m : Memory) (ops : List ScopeOp) : Prop :=
  ∀ front, front <+: ops → d < (m.applyAll front).depth

variable {op : ScopeOp} {ops : List ScopeOp}

theorem StaysAbove.first {d : Nat} (h : StaysAbove d m ops) : d < m.depth :=
  h [] List.nil_prefix

theorem StaysAbove.tail {d : Nat} (h : StaysAbove d m (op :: ops)) :
    StaysAbove d (m.apply op) ops :=
  fun front hfront => h (op :: front) ((List.prefix_cons_inj op).2 hfront)

theorem keys_applyAll (h : StaysAbove (k + 1) m ops) :
    ((m.applyAll ops).scope? k).map Keyed.keys = (m.scope? k).map Keyed.keys := by
  induction ops generalizing m with
  | nil => rfl
  | cons op ops ih => exact (ih h.tail).trans (keys_apply h.first h.tail.first)

/-- Of the assignments that find a binding the last one counts. -/
theorem binding?_applyAll (h : StaysAbove (k + 1) m ops) (x : String) :
    (m.applyAll ops).binding? k x = (m.found k x ops).getLast?.or (m.binding? k x) := by
  induction ops generalizing m with
  | nil => rfl
  | cons op ops ih =>
    calc (m.applyAll (op :: ops)).binding? k x
        = ((m.apply op).found k x ops).getLast?.or ((m.apply op).binding? k x) := ih h.tail
      _ = ((m.apply op).found k x ops).getLast?.or
            ((m.foundBy k x op).or (m.binding? k x)) := by
          rw [binding?_apply h.first h.tail.first]
      _ = (m.found k x (op :: ops)).getLast?.or (m.binding? k x) := by
          rw [found, List.getLast?_append, Option.or_assoc]
          cases m.foundBy k x op <;> rfl

/-! ## What is read -/

variable {m' : Memory}

theorem HeldAt.get? (h : m.HeldAt x k) : m.get? x = m.binding? k x := by
  obtain ⟨inside, s, around, hscopes, rfl, hx, hinside⟩ := h
  have hnone : inside.findSome? (·.get? x) = none :=
    List.findSome?_eq_none_iff.2 fun s' hs' => Keyed.get?_eq_none_iff.2 (hinside s' hs')
  obtain ⟨v, hv⟩ := Option.isSome_iff_exists.1 (Keyed.contains_iff.2 hx)
  rw [Memory.get?, binding?, scope?_of_scopes hscopes, hscopes, List.findSome?_append, hnone,
    Option.none_or, List.findSome?_cons, hv, Option.bind_some, hv]

theorem get?_eq_none_iff : m.get? x = none ↔ ∀ keys ∈ m.scopes.map Keyed.keys, x ∉ keys := by
  rw [Memory.get?, List.findSome?_eq_none_iff, List.forall_mem_map]
  exact forall₂_congr fun s _ => Keyed.get?_eq_none_iff

/-- Memories of one depth are compared scope by scope. -/
theorem map_scopes_congr {α : Type} {f : Scope → α} (hdepth : m.depth = m'.depth)
    (h : ∀ k < m.depth, (m.scope? k).map f = (m'.scope? k).map f) :
    m.scopes.map f = m'.scopes.map f := by
  have hreverse : m.scopes.reverse.map f = m'.scopes.reverse.map f := by
    apply List.ext_getElem?
    intro k
    rw [List.getElem?_map, List.getElem?_map]
    by_cases hk : k < m.depth
    · exact h k hk
    · rw [List.getElem?_eq_none, List.getElem?_eq_none]
      · rw [List.length_reverse]
        exact Nat.not_lt.1 fun hlt => hk (hdepth.symm ▸ hlt)
      · rw [List.length_reverse]
        exact Nat.not_lt.1 hk
  rwa [List.map_reverse, List.map_reverse, List.reverse_inj] at hreverse

theorem HeldAt.congr (hkeys : m.scopes.map Keyed.keys = m'.scopes.map Keyed.keys)
    (h : m.HeldAt x k) : m'.HeldAt x k := by
  obtain ⟨inside, s, around, hscopes, rfl, hx, hinside⟩ := h
  rw [hscopes, List.map_append, List.map_cons] at hkeys
  obtain ⟨inside', rest, hscopes', hin, hrest⟩ := List.map_eq_append_iff.1 hkeys.symm
  obtain ⟨s', around', rfl, hs, haround⟩ := List.map_eq_cons_iff.1 hrest
  refine ⟨inside', s', around', hscopes', ?_, hs ▸ hx, fun s₁ hs₁ hmem => ?_⟩
  · simpa using congrArg List.length haround
  · have hkeys₁ : s₁.keys ∈ inside.map Keyed.keys := hin ▸ List.mem_map_of_mem hs₁
    obtain ⟨s₂, hs₂, heq⟩ := List.mem_map.1 hkeys₁
    exact hinside s₂ hs₂ (heq ▸ hmem)

/-! ## Brackets -/

/-- The operations never leave the scope that they begin in, and end in it. -/
structure Bracketed (m : Memory) (ops : List ScopeOp) : Prop where
  inside : ∀ front, front <+: ops → m.depth ≤ (m.applyAll front).depth
  ends : (m.applyAll ops).depth = m.depth

/-- **Scopes are well bracketed.** When a scope is entered and left again, whatever is done
meanwhile, it is left indeed and the scopes around it bind the same names as before. The value of
a binding in one of them is that of the last assignment that found it, and the one from before if
there is none. So no declaration is left over, and a variable that was bound has the last value that
was assigned to this binding. -/
theorem brackets_exact (t : Memory) (w : List ScopeOp) (h : t.push.Bracketed w) :
    ∃ t', (t.push.applyAll w).pop? = some t' ∧ t'.depth = t.depth ∧
      (∀ k < t.depth, (t'.scope? k).map Keyed.keys = (t.scope? k).map Keyed.keys ∧
        ∀ x, t'.binding? k x = (t.push.found k x w).getLast?.or (t.binding? k x)) ∧
      (∀ x, t.get? x = none → t'.get? x = none) ∧
      ∀ x k, t.HeldAt x k → t'.get? x = (t.push.found k x w).getLast?.or (t.get? x) := by
  have hdepth : (t.push.applyAll w).depth = t.depth + 1 := h.ends
  have hstays : ∀ {k}, k < t.depth → StaysAbove (k + 1) t.push w :=
    fun hk front hfront => Nat.lt_of_lt_of_le (Nat.succ_lt_succ hk) (h.inside front hfront)
  have hpos : 0 < t.depth := Nat.succ_pos _
  obtain ⟨t', hpop, houter⟩ := pop?_of_lt (m := t.push.applyAll w) (by omega)
  have hsame : t'.depth = t.depth := by
    rw [depth, houter]
    exact Nat.succ.inj hdepth
  have hinner : ∀ {k}, k < t.depth → t'.scope? k = (t.push.applyAll w).scope? k := by
    intro k hk
    rw [scope?_eq_outer (m := t.push.applyAll w) (by omega), scope?, houter]
  have hkeys : ∀ k < t.depth, (t'.scope? k).map Keyed.keys = (t.scope? k).map Keyed.keys := by
    intro k hk
    rw [hinner hk, keys_applyAll (hstays hk), scope?_push hk]
  have hbinding : ∀ k < t.depth, ∀ x,
      t'.binding? k x = (t.push.found k x w).getLast?.or (t.binding? k x) := by
    intro k hk x
    rw [binding?, hinner hk, binding?, ← scope?_push hk]
    exact binding?_applyAll (hstays hk) x
  have hscopes : t'.scopes.map Keyed.keys = t.scopes.map Keyed.keys :=
    map_scopes_congr hsame fun k hk => hkeys k (hsame ▸ hk)
  refine ⟨t', hpop, hsame, fun k hk => ⟨hkeys k hk, hbinding k hk⟩, fun x hx => ?_, ?_⟩
  · rw [get?_eq_none_iff, hscopes, ← get?_eq_none_iff]
    exact hx
  · intro x k hheld
    rw [(hheld.congr hscopes.symm).get?, hheld.get?, hbinding k hheld.lt_depth x]

/-- A variable is hidden and shown again twice, and assigned to in between. -/
def shadowing : List ScopeOp :=
  [.assign "x" (.text "E4"), .push, .declare "x" (.text "A4"), .assign "x" (.text "B4"), .pop,
    .assign "x" (.text "F4"), .assign "y" (.text "G4"), .declare "x" (.text "C5"),
    .assign "x" (.text "D5")]

theorem brackets_exact_shadowing :
    let t := empty.declare "x" (.text "C4")
    (t.push.Bracketed shadowing ∧ t.HeldAt "x" 0 ∧ t.get? "y" = none) ∧
    t.push.found 0 "x" shadowing = [.text "E4", .text "F4"] ∧
    ∃ t', (t.push.applyAll shadowing).pop? = some t' ∧ t'.depth = 1 ∧
      t'.get? "x" = some (.text "F4") ∧ t'.get? "y" = none := by
  intro t
  have hinside : ∀ i < 10, t.push.depth ≤ (t.push.applyAll (shadowing.take i)).depth := by
    decide +kernel
  have hbracketed : t.push.Bracketed shadowing := by
    refine ⟨fun front hfront => ?_, by decide +kernel⟩
    rw [List.prefix_iff_eq_take.1 hfront]
    exact hinside _ (Nat.lt_succ_of_le hfront.length_le)
  have hheld : t.HeldAt "x" 0 := by decide +kernel
  have hunbound : t.get? "y" = none := by decide +kernel
  have hfound : t.push.found 0 "x" shadowing = [.text "E4", .text "F4"] := by decide +kernel
  obtain ⟨t', hpop, hdepth, -, hnone, hread⟩ := brackets_exact t shadowing hbracketed
  refine ⟨⟨hbracketed, hheld, hunbound⟩, hfound, t', hpop, hdepth, ?_, hnone "y" hunbound⟩
  rw [hread "x" 0 hheld, hfound]
  rfl

end Memory

end TuneBlocks
