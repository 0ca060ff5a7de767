import TuneBlocks.Value

/-!
# The order of doubles

Doubles are compared by rank: their kind from negative infinity to positive infinity, then the
exponent, then the mantissa. Only a NaN has no rank. The ranks are in linear order, so the order of
doubles is transitive (`float_le_trans`), NaN and the zeros included, and equal doubles are those of
one rank (`float_beq_iff`).
-/

namespace TuneBlocks

open Float.Model (UnpackedFloat)

/-- Where a double stands among the others. -/
abbrev Rank := Int × Int × Int

namespace Rank

def of? : UnpackedFloat → Option Rank
  | .notANumber => none
  | .infinity .negative => some (-2, 0, 0)
  | .finite .negative m e _ => some (-1, -e, -m)
  | .zero _ => some (0, 0, 0)
  | .finite .positive m e _ => some (1, e, m)
  | .infinity .positive => some (2, 0, 0)

def cmp : Rank → Rank → Ordering :=
  compareLex (compareOn (·.1)) (compareLex (compareOn (·.2.1)) (compareOn (·.2.2)))

instance : Std.TransCmp cmp :=
  inferInstanceAs (Std.TransCmp (compareLex (compareOn fun x : Rank => x.1)
    (compareLex (compareOn fun x : Rank => x.2.1) (compareOn fun x : Rank => x.2.2))))

theorem compare_neg_neg (a b : Int) : compare (-a) (-b) = (compare a b).swap := by
  rw [Std.OrientedOrd.eq_swap (a := a)]
  simp only [compare, compareOfLessAndEq, Ordering.swap_swap]
  grind

theorem compare_ofNat (a b : Nat) : compare (a : Int) b = compare a b := by
  simp only [compare, compareOfLessAndEq]
  grind

theorem cmp_positive (e e' : Int) (m m' : Nat) :
    cmp (1, e, m) (1, e', m') = (compare e e').then (compare m m') := by
  simp only [cmp, compareLex, compareOn, compare_ofNat]
  rfl

theorem cmp_negative (e e' : Int) (m m' : Nat) :
    cmp (-1, -e, -m) (-1, -e', -m') = ((compare e e').then (compare m m')).swap := by
  have he := compare_neg_neg e e'
  have hm := (compare_neg_neg m m').trans (congrArg Ordering.swap (compare_ofNat m m'))
  simp only [cmp, compareLex, compareOn, he, hm, Ordering.swap_then]
  rfl

theorem compare_eq (a b : UnpackedFloat) :
    a.compare b = (of? a).bind fun x => (of? b).map fun y => cmp x y := by
  cases a with
  | notANumber => cases b <;> rfl
  | infinity s =>
    cases b with
    | notANumber => cases s <;> rfl
    | infinity t => cases s <;> cases t <;> rfl
    | zero t => cases s <;> rfl
    | finite t => cases s <;> cases t <;> rfl
  | zero s =>
    cases b with
    | notANumber => rfl
    | infinity t => cases t <;> rfl
    | zero t => rfl
    | finite t => cases t <;> rfl
  | finite s m e =>
    cases b with
    | notANumber => cases s <;> rfl
    | infinity t => cases s <;> cases t <;> rfl
    | zero t => cases s <;> rfl
    | finite t m' e' =>
      cases s <;> cases t
      · exact congrArg some (cmp_negative e e' m m').symm
      · rfl
      · rfl
      · exact congrArg some (cmp_positive e e' m m').symm

theorem cmp_eq_iff {x y : Rank} : cmp x y = .eq ↔ x = y := by
  simp only [cmp, compareLex_eq_eq, compareOn, Std.LawfulEqOrd.compare_eq_iff_eq, Prod.ext_iff]

theorem isSome_of? (a : UnpackedFloat) : (of? a).isSome = !a.isNaN := by
  cases a with
  | notANumber => rfl
  | infinity s => cases s <;> rfl
  | zero s => rfl
  | finite s => cases s <;> rfl

theorem le_iff {a b : UnpackedFloat} :
    a.le b = true ↔ ∃ x y, of? a = some x ∧ of? b = some y ∧ (cmp x y).isLE = true := by
  rw [UnpackedFloat.le, compare_eq]
  cases of? a <;> cases of? b <;> simp

theorem lt_iff {a b : UnpackedFloat} :
    a.lt b = true ↔ ∃ x y, of? a = some x ∧ of? b = some y ∧ cmp x y = .lt := by
  rw [UnpackedFloat.lt, compare_eq]
  cases of? a <;> cases of? b <;> simp

theorem beq_iff {a b : UnpackedFloat} :
    a.beq b = true ↔ ∃ x, of? a = some x ∧ of? b = some x := by
  change (a.compare b == some .eq) = true ↔ _
  rw [compare_eq]
  cases of? a with
  | none => simp
  | some x => cases of? b <;> simp [cmp_eq_iff, Eq.comm (a := x)]

end Rank

theorem float_le_iff {a b : Float} : a ≤ b ↔
    ∃ x y, Rank.of? a.toModel.unpack = some x ∧ Rank.of? b.toModel.unpack = some y ∧
      (Rank.cmp x y).isLE = true := by
  rw [← Rank.le_iff]
  exact decide_eq_true_iff

/-- Doubles that can be compared are numbers. -/
theorem float_le_self {a b : Float} (h : a ≤ b) : a ≤ a ∧ b ≤ b := by
  obtain ⟨x, y, hx, hy, -⟩ := float_le_iff.1 h
  exact ⟨float_le_iff.2 ⟨x, x, hx, hx, Std.ReflCmp.isLE_rfl⟩,
    float_le_iff.2 ⟨y, y, hy, hy, Std.ReflCmp.isLE_rfl⟩⟩

theorem float_le_trans {a b c : Float} (hab : a ≤ b) (hbc : b ≤ c) : a ≤ c := by
  obtain ⟨x, y, hx, hy, hxy⟩ := float_le_iff.1 hab
  obtain ⟨y', z, hy', hz, hyz⟩ := float_le_iff.1 hbc
  obtain rfl := Option.some.inj (hy.symm.trans hy')
  exact float_le_iff.2 ⟨x, z, hx, hz, Std.TransCmp.isLE_trans hxy hyz⟩

theorem float_toBits_inj {x y : Float} (h : x.toBits = y.toBits) : x = y := by
  cases x with | ofModel x =>
  cases y with | ofModel y =>
  cases x
  cases y
  cases h
  rfl

theorem float_beq_iff {a b : Float} : (a == b) = true ↔
    ∃ x, Rank.of? a.toModel.unpack = some x ∧ Rank.of? b.toModel.unpack = some x :=
  Rank.beq_iff

theorem float_lt_iff {a b : Float} : a < b ↔
    ∃ x y, Rank.of? a.toModel.unpack = some x ∧ Rank.of? b.toModel.unpack = some y ∧
      Rank.cmp x y = .lt := by
  rw [← Rank.lt_iff]
  exact decide_eq_true_iff

/-- Only a NaN has no rank. -/
theorem float_isNaN_eq_false_iff {a : Float} :
    a.isNaN = false ↔ ∃ x, Rank.of? a.toModel.unpack = some x := by
  rw [← Option.isSome_iff_exists, Rank.isSome_of?]
  exact (Bool.not_eq_true' _).symm.to_iff

end TuneBlocks
