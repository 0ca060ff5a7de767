/-!
# Tables in insertion order

A `Keyed` table has text keys, each at most once, and lists them in the order in which they were
first inserted: writing to a key that is present keeps its place.
-/

namespace TuneBlocks

/-- A table with text keys, kept in the order of first insertion. -/
@[ext]
structure Keyed (α : Type u) where
  entries : List (String × α)
  nodup_keys : (entries.map Prod.fst).Nodup
deriving DecidableEq

namespace Keyed

variable {α : Type u} {β : Type v}

def empty : Keyed α := ⟨[], .nil⟩

instance : EmptyCollection (Keyed α) := ⟨empty⟩
instance : Inhabited (Keyed α) := ⟨empty⟩

/-- The keys, in order. -/
def keys (t : Keyed α) : List String := t.entries.map Prod.fst

/-- The values, in the order of their keys. -/
def values (t : Keyed α) : List α := t.entries.map Prod.snd

def size (t : Keyed α) : Nat := t.entries.length

def isEmpty (t : Keyed α) : Bool := t.entries.isEmpty

/-- The value of the first entry with the given key. -/
def findEntry (key : String) : List (String × α) → Option α
  | [] => none
  | (k, a) :: rest => if k = key then some a else findEntry key rest

/-- The value stored under a key. -/
def get? (t : Keyed α) (key : String) : Option α := findEntry key t.entries

def contains (t : Keyed α) (key : String) : Bool := (t.get? key).isSome

/-- Replaces the entry of `key`, or appends one, by `f` of what is stored there. -/
def upsertEntries (key : String) (f : Option α → α) : List (String × α) → List (String × α)
  | [] => [(key, f none)]
  | (k, a) :: rest =>
    if k = key then (k, f (some a)) :: rest else (k, a) :: upsertEntries key f rest

theorem keys_upsertEntries (key : String) (f : Option α → α) (es : List (String × α)) :
    (upsertEntries key f es).map Prod.fst =
      if key ∈ es.map Prod.fst then es.map Prod.fst else es.map Prod.fst ++ [key] := by
  induction es with
  | nil => simp [upsertEntries]
  | cons e rest ih =>
    obtain ⟨k, a⟩ := e
    by_cases h : k = key
    · simp [upsertEntries, h]
    · have h' : key ≠ k := fun e => h e.symm
      simp only [upsertEntries, h, ↓reduceIte, List.map_cons, List.mem_cons, ih, h', false_or]
      split <;> simp

theorem upsertEntries_append {key : String} {front : List (String × α)} (f : Option α → α)
    (hkey : key ∉ front.map Prod.fst) (back : List (String × α)) :
    upsertEntries key f (front ++ back) = front ++ upsertEntries key f back := by
  induction front with
  | nil => rfl
  | cons e rest ih =>
    obtain ⟨k, a⟩ := e
    simp only [List.map_cons, List.mem_cons, not_or] at hkey
    have hk : k ≠ key := fun h => hkey.1 h.symm
    simp only [List.cons_append, upsertEntries, hk, ↓reduceIte, ih hkey.2]

theorem upsertEntries_of_not_mem {key : String} {es : List (String × α)} (f : Option α → α)
    (hkey : key ∉ es.map Prod.fst) : upsertEntries key f es = es ++ [(key, f none)] := by
  simpa [upsertEntries] using upsertEntries_append f hkey []

/-- Stores under `key` what `f` makes of the value there, at the end if `key` is new. -/
def upsert (t : Keyed α) (key : String) (f : Option α → α) : Keyed α where
  entries := upsertEntries key f t.entries
  nodup_keys := by
    have h := t.nodup_keys
    rw [keys_upsertEntries]
    split
    · exact h
    · rename_i hk
      rw [List.nodup_append]
      refine ⟨h, by simp, ?_⟩
      intro a ha b hb
      rw [List.mem_singleton] at hb
      rintro rfl
      exact hk (hb ▸ ha)

/-- Stores a value under `key`; a key that is present keeps its place. -/
def insert (t : Keyed α) (key : String) (a : α) : Keyed α := t.upsert key fun _ => a

/-- Inserts entries from left to right, so that of a repeated key the first place and the last
value count. -/
def ofList (es : List (String × α)) : Keyed α :=
  es.foldl (fun t e => t.insert e.1 e.2) empty

@[simp] theorem keys_empty : (empty : Keyed α).keys = [] := rfl

@[simp] theorem get?_empty (key : String) : (empty : Keyed α).get? key = none := rfl

theorem keys_nodup (t : Keyed α) : t.keys.Nodup := t.nodup_keys

theorem keys_upsert (t : Keyed α) (key : String) (f : Option α → α) :
    (t.upsert key f).keys = if key ∈ t.keys then t.keys else t.keys ++ [key] :=
  keys_upsertEntries key f t.entries

theorem findEntry_upsertEntries (key k : String) (f : Option α → α) (es : List (String × α)) :
    findEntry k (upsertEntries key f es) =
      if k = key then some (f (findEntry key es)) else findEntry k es := by
  induction es with
  | nil =>
    by_cases h : k = key
    · simp [upsertEntries, findEntry, h]
    · have h' : key ≠ k := fun e => h e.symm
      simp [upsertEntries, findEntry, h, h']
  | cons e rest ih =>
    obtain ⟨j, a⟩ := e
    by_cases h : j = key
    · subst h
      by_cases hk : j = k
      · subst hk; simp [upsertEntries, findEntry]
      · have hk' : k ≠ j := fun e => hk e.symm
        simp [upsertEntries, findEntry, hk, hk']
    · by_cases hk : j = k
      · subst hk; simp [upsertEntries, findEntry, h]
      · simp only [upsertEntries, findEntry, h, hk, ↓reduceIte, ih]

/-- Reading after a write: the written key holds what `f` made, every other key is as before. -/
theorem get?_upsert (t : Keyed α) (key k : String) (f : Option α → α) :
    (t.upsert key f).get? k = if k = key then some (f (t.get? key)) else t.get? k :=
  findEntry_upsertEntries key k f t.entries

@[simp] theorem get?_insert (t : Keyed α) (key k : String) (a : α) :
    (t.insert key a).get? k = if k = key then some a else t.get? k :=
  get?_upsert t key k _

theorem keys_insert (t : Keyed α) (key : String) (a : α) :
    (t.insert key a).keys = if key ∈ t.keys then t.keys else t.keys ++ [key] :=
  keys_upsert t key _

/-- A key that comes again keeps its first place. -/
theorem eraseDups_concat (keys : List String) (key : String) :
    (keys ++ [key]).eraseDups =
      if key ∈ keys.eraseDups then keys.eraseDups else keys.eraseDups ++ [key] := by
  rw [List.eraseDups_append]
  by_cases h : key ∈ keys
  · simp [h, List.removeAll]
  · simp [h, List.removeAll, List.eraseDups_cons]

theorem findEntry_eq_none_iff (key : String) (es : List (String × α)) :
    findEntry key es = none ↔ key ∉ es.map Prod.fst := by
  induction es with
  | nil => simp [findEntry]
  | cons e rest ih =>
    obtain ⟨k, a⟩ := e
    by_cases h : k = key
    · simp [findEntry, h]
    · have h' : key ≠ k := fun e => h e.symm
      simp [findEntry, h, h', ih]

theorem findEntry_eq_some_iff (key : String) (a : α) {es : List (String × α)}
    (hnd : (es.map Prod.fst).Nodup) : findEntry key es = some a ↔ (key, a) ∈ es := by
  induction es with
  | nil => simp [findEntry]
  | cons e rest ih =>
    obtain ⟨k, b⟩ := e
    simp only [List.map_cons, List.nodup_cons] at hnd
    by_cases h : k = key
    · subst h
      have hmem : (k, a) ∉ rest := fun hm => hnd.1 (List.mem_map_of_mem hm)
      simp [findEntry, hmem, eq_comm]
    · have h' : key ≠ k := fun e => h e.symm
      simp [findEntry, h, h', ih hnd.2]

theorem get?_eq_none_iff {t : Keyed α} {key : String} : t.get? key = none ↔ key ∉ t.keys :=
  findEntry_eq_none_iff key t.entries

theorem get?_eq_some_iff {t : Keyed α} {key : String} {a : α} :
    t.get? key = some a ↔ (key, a) ∈ t.entries :=
  findEntry_eq_some_iff key a t.nodup_keys

theorem contains_iff {t : Keyed α} {key : String} : t.contains key = true ↔ key ∈ t.keys := by
  unfold contains
  cases h : t.get? key with
  | none => simpa using get?_eq_none_iff.1 h
  | some a =>
    have hmem : key ∈ t.keys := List.mem_map_of_mem (get?_eq_some_iff.1 h)
    simp [hmem]

end Keyed

end TuneBlocks
