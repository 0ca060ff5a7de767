import TuneBlocks.Proofs.FloatOrder

/-!
# Equality of branches

A branch compares two values as numbers if both are numeric, and as they are otherwise, so which
comparison is made depends on both. Still equality goes by a key that each value has by itself
(`compare_eq_iff`): the rank of its number for a numeric value, and the value for any other. Only a
NaN has no key. So equality is an equivalence of all other values.
-/

namespace TuneBlocks

namespace Value

/-- Whether a value is the number that is none. -/
def isNaN : Value → Bool
  | number x => x.isNaN
  | bool _ | text _ => false

/-- What branches tell values apart by. -/
inductive Key where
  | rank (r : Rank)
  | plain (v : Value)

/-- The rank of the number that a value counts as. -/
def rank? (v : Value) : Option Rank := Rank.of? v.toNumber.toModel.unpack

/-- The key of a value; a NaN has none. -/
def key? (v : Value) : Option Key :=
  if v.isNumeric then v.rank?.map .rank else some (.plain v)

variable {a b : Value}

/-! ## Values as numbers -/

theorem isNaN_of_isFinite {x : Float} (h : x.isFinite = true) : x.isNaN = false := by
  change x.toModel.unpack.isFinite = true at h
  change x.toModel.unpack.isNaN = false
  cases hx : x.toModel.unpack with
  | notANumber =>
    rw [hx] at h
    cases h
  | infinity s => rfl
  | zero s => rfl
  | finite s => rfl

/-- Truth values and texts never count as a NaN: a text that reads as one is no numeral. -/
theorem isNaN_toNumber (v : Value) : v.toNumber.isNaN = v.isNaN := by
  have hzero : Float.isNaN 0 = false := by decide +kernel
  have hone : Float.isNaN 1 = false := by decide +kernel
  cases v with
  | number x => rfl
  | bool b => cases b <;> assumption
  | text s =>
    rw [toNumber]
    cases hread : Numeral.readFinite? s with
    | none => exact hzero
    | some x => exact isNaN_of_isFinite (Option.filter_eq_some_iff.1 hread).2

theorem exists_rank_iff : (∃ r, a.rank? = some r) ↔ a.isNaN = false := by
  rw [← isNaN_toNumber, float_isNaN_eq_false_iff, rank?]

/-- Values that have ranks are in order by them. -/
theorem compare_lt_iff : a.compare .lt b = true ↔
    ∃ r s, a.rank? = some r ∧ b.rank? = some s ∧ Rank.cmp r s = .lt :=
  decide_eq_true_iff.trans float_lt_iff

theorem compare_ge_iff : a.compare .ge b = true ↔
    ∃ s r, b.rank? = some s ∧ a.rank? = some r ∧ (Rank.cmp s r).isLE = true :=
  decide_eq_true_iff.trans float_le_iff

/-- One of the two relations holds between two values unless one of them is a NaN. -/
theorem compare_lt_eq_not_ge_iff :
    a.compare .lt b = (!a.compare .ge b) ↔ a.isNaN = false ∧ b.isNaN = false := by
  rw [← exists_rank_iff, ← exists_rank_iff]
  constructor
  · intro h
    cases hlt : a.compare .lt b with
    | true =>
      obtain ⟨r, s, hr, hs, -⟩ := compare_lt_iff.1 hlt
      exact ⟨⟨r, hr⟩, s, hs⟩
    | false =>
      have hge : a.compare .ge b = true := by simpa [hlt] using h
      obtain ⟨s, r, hs, hr, -⟩ := compare_ge_iff.1 hge
      exact ⟨⟨r, hr⟩, s, hs⟩
  · rintro ⟨⟨r, hr⟩, s, hs⟩
    have hlt : a.compare .lt b = true ↔ Rank.cmp r s = .lt := by
      simp only [compare_lt_iff, hr, hs, Option.some.injEq, exists_and_left, exists_eq_left']
    have hge : a.compare .ge b = true ↔ (Rank.cmp s r).isLE = true := by
      simp only [compare_ge_iff, hr, hs, Option.some.injEq, exists_and_left, exists_eq_left']
    rw [Bool.eq_iff_iff, Bool.not_eq_true', ← Bool.not_eq_true, hlt, hge,
      @Std.OrientedCmp.eq_swap _ Rank.cmp _ s r]
    cases Rank.cmp r s <;> decide

/-! ## Keys -/

theorem isNumeric_of_isNaN (h : a.isNaN = true) : a.isNumeric = true := by
  cases a with
  | number x => rfl
  | bool b => cases h
  | text s => cases h

theorem exists_key_iff : (∃ k, a.key? = some k) ↔ a.isNaN = false := by
  rw [key?]
  split
  · rw [← exists_rank_iff]
    constructor
    · rintro ⟨k, hk⟩
      obtain ⟨r, hr, -⟩ := Option.map_eq_some_iff.1 hk
      exact ⟨r, hr⟩
    · rintro ⟨r, hr⟩
      exact ⟨.rank r, Option.map_eq_some_iff.2 ⟨r, hr, rfl⟩⟩
  · rename_i h
    have hnan : a.isNaN = false := Bool.eq_false_iff.2 fun hnan => h (isNumeric_of_isNaN hnan)
    exact ⟨fun _ => hnan, fun _ => ⟨_, rfl⟩⟩

/-- Values that are the same are numeric at the same time. -/
theorem isNumeric_of_same (h : a.same b = true) : a.isNumeric = b.isNumeric := by
  cases a <;> cases b <;> simp_all [same, isNumeric]

theorem same_iff_eq (h : a.isNumeric = false) : a.same b = true ↔ a = b := by
  cases a <;> cases b <;> simp_all [same, isNumeric]

/-- **Equality of branches is equality of keys.** -/
theorem compare_eq_iff : a.compare .eq b = true ↔ ∃ k, a.key? = some k ∧ b.key? = some k := by
  rw [compare, key?, key?]
  by_cases hsame : a.isNumeric = b.isNumeric
  · rw [← hsame]
    cases ha : a.isNumeric with
    | true =>
      simp only [Bool.and_self, if_true, float_beq_iff, Option.map_eq_some_iff]
      constructor
      · rintro ⟨r, hr, hr'⟩
        exact ⟨.rank r, ⟨r, hr, rfl⟩, r, hr', rfl⟩
      · rintro ⟨k, ⟨r, hr, rfl⟩, s, hs, hrank⟩
        cases hrank
        exact ⟨r, hr, hs⟩
    | false => simp [same_iff_eq ha, eq_comm]
  · -- the comparison is that of values of different kinds, and one of the keys is a rank
    have hdiffer : a.same b = false := Bool.eq_false_iff.2 fun h => hsame (isNumeric_of_same h)
    cases ha : a.isNumeric <;> cases hb : b.isNumeric <;> simp_all

/-- Values that are the same have the same key, if any. -/
theorem key?_of_same (h : a.same b = true) : a.key? = b.key? := by
  cases a with
  | number x =>
    cases b with
    | number y =>
      rcases Bool.or_eq_true_iff.1 h with hbits | hequal
      · rw [float_toBits_inj (eq_of_beq hbits)]
      · obtain ⟨r, hx, hy⟩ := float_beq_iff.1 hequal
        exact congrArg (Option.map Key.rank) (hx.trans hy.symm)
    | bool b => cases h
    | text s => cases h
  | bool b => rw [(same_iff_eq rfl).1 h]
  | text s =>
    cases b with
    | number y => cases h
    | bool b => cases h
    | text t => rw [eq_of_beq h]

/-- **Equality of branches is an equivalence of the values other than NaN**, whatever the kinds of
the values are: it is symmetric and transitive, and a value is equal to itself if and only if it is
no NaN. Values that are the same are equal under the same condition. And less is the opposite of
greater or equal if and only if neither value is a NaN. -/
theorem branch_equality (a b c : Value) :
    (a.compare .eq a = true ↔ a.isNaN = false) ∧
    a.compare .eq b = b.compare .eq a ∧
    (a.compare .eq b = true → b.compare .eq c = true → a.compare .eq c = true) ∧
    (a.same b = true → (a.compare .eq b = true ↔ a.isNaN = false)) ∧
    (a.compare .lt b = (!a.compare .ge b) ↔ a.isNaN = false ∧ b.isNaN = false) := by
  refine ⟨?_, ?_, ?_, ?_, compare_lt_eq_not_ge_iff⟩
  · rw [compare_eq_iff, ← exists_key_iff]
    simp
  · rw [Bool.eq_iff_iff, compare_eq_iff, compare_eq_iff]
    exact exists_congr fun k => and_comm
  · simp only [compare_eq_iff]
    rintro ⟨k, ha, hb⟩ ⟨k', hb', hc⟩
    cases hb.symm.trans hb'
    exact ⟨k, ha, hc⟩
  · intro hsame
    rw [compare_eq_iff, ← exists_key_iff, key?_of_same hsame]
    simp

/-- Numerals are equal however they are written, but a truth value is no number. -/
example : (text " 3.0").compare .eq (number 3) = true ∧
    (text "3e0").compare .eq (text " 3.0") = true ∧
    (bool true).compare .eq (number 1) = false ∧
    (text "nan").compare .eq (text "nan") = true := by
  decide +kernel

end Value

end TuneBlocks
