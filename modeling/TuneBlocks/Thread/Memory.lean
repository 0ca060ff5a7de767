import TuneBlocks.Keyed
import TuneBlocks.Value

/-!
# Thread memory

The variables of a thread, in a stack of scopes that is never empty. A variable is read in the
innermost scope that binds it.
-/

namespace TuneBlocks

/-- The bindings of one scope. -/
abbrev Scope := Keyed Value

/-- A stack of scopes: the innermost one, and those around it from the inside outwards. -/
@[ext]
structure Memory where
  inner : Scope
  outer : List Scope
deriving DecidableEq

namespace Memory

/-- One scope without bindings. -/
def empty : Memory := ⟨∅, []⟩

instance : Inhabited Memory := ⟨empty⟩

/-- All scopes, from the inside outwards. -/
def scopes (m : Memory) : List Scope := m.inner :: m.outer

def depth (m : Memory) : Nat := m.scopes.length

/-- Enters a new scope. -/
def push (m : Memory) : Memory := ⟨∅, m.scopes⟩

/-- Leaves the innermost scope; the last one is never left. -/
def pop? (m : Memory) : Option Memory :=
  match m.outer with
  | [] => none
  | scope :: rest => some ⟨scope, rest⟩

/-- Binds a variable in the innermost scope. -/
def declare (m : Memory) (name : String) (v : Value) : Memory :=
  { m with inner := m.inner.insert name v }

/-- Changes the innermost binding of a variable, if there is one. -/
def rebind? (name : String) (v : Value) : List Scope → Option (List Scope)
  | [] => none
  | scope :: rest =>
    if scope.contains name then some (scope.insert name v :: rest)
    else (rebind? name v rest).map (scope :: ·)

/-- Changes the innermost binding of a variable; one that is not bound is declared. -/
def assign (m : Memory) (name : String) (v : Value) : Memory :=
  if m.inner.contains name then m.declare name v
  else
    match rebind? name v m.outer with
    | some outer => { m with outer }
    | none => m.declare name v

/-- The innermost binding of a variable. -/
def get? (m : Memory) (name : String) : Option Value := m.scopes.findSome? (·.get? name)

/-- The value of a variable; one that is not bound is zero. -/
def lookup (m : Memory) (name : String) : Value := (m.get? name).getD .zero

@[simp] theorem depth_push (m : Memory) : m.push.depth = m.depth + 1 := rfl

@[simp] theorem pop?_push (m : Memory) : m.push.pop? = some m := rfl

@[simp] theorem depth_declare (m : Memory) (name : String) (v : Value) :
    (m.declare name v).depth = m.depth := rfl

theorem length_rebind? {name : String} {v : Value} {scopes scopes' : List Scope}
    (h : rebind? name v scopes = some scopes') : scopes'.length = scopes.length := by
  induction scopes generalizing scopes' with
  | nil => simp [rebind?] at h
  | cons scope rest ih =>
    unfold rebind? at h
    split at h
    · cases h; rfl
    · obtain ⟨rest', hrest, rfl⟩ := Option.map_eq_some_iff.1 h
      simp [ih hrest]

@[simp] theorem depth_assign (m : Memory) (name : String) (v : Value) :
    (m.assign name v).depth = m.depth := by
  unfold assign
  split
  · rfl
  · split
    · rename_i h
      simp [depth, scopes, length_rebind? h]
    · rfl

/-- A declaration is what is read next, and hides nothing else. -/
theorem get?_declare (m : Memory) (name x : String) (v : Value) :
    (m.declare name v).get? x = if x = name then some v else m.get? x := by
  by_cases h : x = name <;> simp [get?, declare, scopes, List.findSome?_cons, h]

/-- A variable that is rebound has its new value, and no other one changes. -/
theorem findSome?_rebind? {name : String} {v : Value} {scopes scopes' : List Scope}
    (h : rebind? name v scopes = some scopes') (x : String) :
    scopes'.findSome? (·.get? x) = if x = name then some v else scopes.findSome? (·.get? x) := by
  induction scopes generalizing scopes' with
  | nil => cases h
  | cons scope rest ih =>
    unfold rebind? at h
    split at h
    · cases h
      by_cases hx : x = name <;> simp [List.findSome?_cons, hx]
    · rename_i hunbound
      obtain ⟨rest', hrest, rfl⟩ := Option.map_eq_some_iff.1 h
      rw [List.findSome?_cons, List.findSome?_cons, ih hrest]
      by_cases hx : x = name
      · have hnone : scope.get? x = none := by
          rw [hx]
          exact Option.not_isSome_iff_eq_none.1 hunbound
        rw [hnone, if_pos hx]
      · rw [if_neg hx, if_neg hx]

theorem scopes_assign (m : Memory) (name : String) (v : Value) :
    (m.assign name v).scopes = (rebind? name v m.scopes).getD (m.declare name v).scopes := by
  rw [assign, show m.scopes = m.inner :: m.outer from rfl, rebind?]
  by_cases hbound : m.inner.contains name = true
  · rw [if_pos hbound, if_pos hbound]
    rfl
  · rw [if_neg hbound, if_neg hbound]
    cases rebind? name v m.outer <;> rfl

/-- An assignment is what is read next, and changes nothing else. -/
theorem get?_assign (m : Memory) (name x : String) (v : Value) :
    (m.assign name v).get? x = if x = name then some v else m.get? x := by
  rw [get?, scopes_assign]
  cases hrebind : rebind? name v m.scopes with
  | none => exact get?_declare m name x v
  | some scopes => exact findSome?_rebind? hrebind x

theorem lookup_declare (m : Memory) (name : String) (v : Value) :
    (m.declare name v).lookup name = v := by
  rw [lookup, get?_declare, if_pos rfl, Option.getD_some]

theorem lookup_assign (m : Memory) (name : String) (v : Value) :
    (m.assign name v).lookup name = v := by
  rw [lookup, get?_assign, if_pos rfl, Option.getD_some]

end Memory

end TuneBlocks
