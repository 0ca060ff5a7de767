import Mathlib.Algebra.Order.Field.Power
import Mathlib.Algebra.Order.Field.Rat
import Mathlib.Tactic.Linarith
import Mathlib.Tactic.Ring
import TuneBlocks.Decimal.Shortest

/-!
# Shortest decimals round to their doubles

The numbers that round to a double lie between the midpoints to its neighbours (`Binary.Reads`), and
the two ends belong to the doubles with even mantissas. The intervals of different doubles do not
overlap (`Binary.Reads.unique`), and each is wider than a unit of the last of seventeen digits
(`Binary.Valid.wide`), so that the search for a shortest decimal always ends with one in the
interval (`Binary.reads_shortest`).
-/

namespace TuneBlocks

/-- The number that a decimal stands for. -/
def Decimal.value (d : Decimal) : ℚ := d.digits * 10 ^ d.exponent

/-! ## Powers -/

theorem zpow_mul_pow_toNat {a : ℚ} (ha : a ≠ 0) (n : ℤ) :
    a ^ n * a ^ (-n).toNat = a ^ n.toNat := by
  rw [← zpow_natCast, ← zpow_natCast, ← zpow_add₀ ha]
  congr 1
  omega

theorem lt_pow_length_toDigits (n : Nat) : n < 10 ^ (Nat.toDigits 10 n).length :=
  (Nat.length_toDigits_le_iff (by decide) Nat.length_toDigits_pos).1 (Nat.le_refl _)

theorem pow_length_toDigits_le {n : Nat} (hn : 0 < n) :
    10 ^ ((Nat.toDigits 10 n).length - 1) ≤ n := by
  by_cases hlength : (Nat.toDigits 10 n).length - 1 = 0
  · rw [hlength]
    exact hn
  · refine Nat.not_lt.1 fun hlt => ?_
    have := (Nat.length_toDigits_le_iff (by decide) (Nat.pos_of_ne_zero hlength)).2 hlt
    omega

namespace Binary

/-! ## Comparison with decimals -/

/-- Both sides are scaled by one positive number. -/
theorem compareDecimal_eq (c : Nat) (p : Int) (b : Nat) (e : Int) : ∃ m n : Nat, ∃ k : ℚ,
    0 < k ∧ compareDecimal c p b e = compare m n ∧ (m : ℚ) = c * 10 ^ p * k ∧
      (n : ℚ) = b * 2 ^ e * k := by
  have hten := zpow_mul_pow_toNat (show (10 : ℚ) ≠ 0 by norm_num) p
  have htwo := zpow_mul_pow_toNat (show (2 : ℚ) ≠ 0 by norm_num) e
  refine ⟨_, _, 10 ^ (-p).toNat * 2 ^ (-e).toNat, by positivity, rfl, ?_, ?_⟩
  · simp only [Nat.pow_eq, Nat.cast_mul, Nat.cast_pow, Nat.cast_ofNat]
    rw [← hten]
    ring
  · simp only [Nat.pow_eq, Nat.cast_mul, Nat.cast_pow, Nat.cast_ofNat]
    rw [← htwo]
    ring

theorem compareDecimal_eq_lt_iff {c b : Nat} {p e : Int} :
    compareDecimal c p b e = .lt ↔ (c : ℚ) * 10 ^ p < b * 2 ^ e := by
  obtain ⟨m, n, k, hk, heq, hm, hn⟩ := compareDecimal_eq c p b e
  rw [heq, Nat.compare_eq_lt, ← Nat.cast_lt (α := ℚ), hm, hn, mul_lt_mul_iff_left₀ hk]

theorem compareDecimal_eq_gt_iff {c b : Nat} {p e : Int} :
    compareDecimal c p b e = .gt ↔ (b : ℚ) * 2 ^ e < c * 10 ^ p := by
  obtain ⟨m, n, k, hk, heq, hm, hn⟩ := compareDecimal_eq c p b e
  rw [heq, Nat.compare_eq_gt, ← Nat.cast_lt (α := ℚ), hm, hn, mul_lt_mul_iff_left₀ hk]

theorem compareDecimal_eq_eq_iff {c b : Nat} {p e : Int} :
    compareDecimal c p b e = .eq ↔ (c : ℚ) * 10 ^ p = b * 2 ^ e := by
  obtain ⟨m, n, k, hk, heq, hm, hn⟩ := compareDecimal_eq c p b e
  rw [heq, Nat.compare_eq_eq, ← Nat.cast_inj (R := ℚ), hm, hn, mul_left_inj' hk.ne']

/-! ## The decimals that read back -/

/-- The midpoint between a double and the next smaller one. -/
def low (x : Binary) : ℚ :=
  (4 * x.mantissa - (if x.narrowBelow then 1 else 2) : Nat) * 2 ^ (x.exponent - 2)

/-- The midpoint between a double and the next larger one. -/
def high (x : Binary) : ℚ := (4 * x.mantissa + 2 : Nat) * 2 ^ (x.exponent - 2)

/-- The number rounds to the double: it lies between the midpoints to its neighbours, which round to
it themselves if the mantissa is even. -/
structure Reads (x : Binary) (q : ℚ) : Prop where
  low_le : x.low ≤ q
  le_high : q ≤ x.high
  even : q = x.low ∨ q = x.high → x.mantissa % 2 = 0

theorem isReadFrom_iff {x : Binary} {c : Nat} {p : Int} :
    x.isReadFrom c p = true ↔ x.Reads (c * 10 ^ p) := by
  simp only [isReadFrom, Bool.and_eq_true]
  constructor
  · rintro ⟨habove, hbelow⟩
    constructor
    · split at habove
      · cases habove
      · rename_i h
        exact (compareDecimal_eq_eq_iff.1 h).ge
      · rename_i h
        exact (compareDecimal_eq_gt_iff.1 h).le
    · split at hbelow
      · rename_i h
        exact (compareDecimal_eq_lt_iff.1 h).le
      · rename_i h
        exact (compareDecimal_eq_eq_iff.1 h).le
      · cases hbelow
    · rintro (h | h)
      · rw [compareDecimal_eq_eq_iff.2 h] at habove
        exact of_decide_eq_true habove
      · rw [compareDecimal_eq_eq_iff.2 h] at hbelow
        exact of_decide_eq_true hbelow
  · rintro ⟨hlow, hhigh, heven⟩
    constructor
    · split
      · rename_i h
        exact absurd (compareDecimal_eq_lt_iff.1 h) hlow.not_gt
      · rename_i h
        exact decide_eq_true (heven (.inl (compareDecimal_eq_eq_iff.1 h)))
      · rfl
    · split
      · rfl
      · rename_i h
        exact decide_eq_true (heven (.inr (compareDecimal_eq_eq_iff.1 h)))
      · rename_i h
        exact absurd (compareDecimal_eq_gt_iff.1 h) hhigh.not_gt

/-! ## Intervals do not overlap -/

/-- The magnitudes of the finite doubles. Only the smallest exponent has mantissas of less than 53
bits. -/
structure Valid (x : Binary) : Prop where
  lt : x.mantissa < 2 ^ 53
  ge : -1074 ≤ x.exponent
  full : -1074 < x.exponent → 2 ^ 52 ≤ x.mantissa
  narrow : x.narrowBelow = true ↔ x.mantissa = 2 ^ 52 ∧ -1074 < x.exponent

/-- The order of magnitudes. -/
def Below (x y : Binary) : Prop :=
  x.exponent < y.exponent ∨ x.exponent = y.exponent ∧ x.mantissa < y.mantissa

variable {x y : Binary} {q : ℚ}

/-- Ends of intervals in one unit: those of different doubles meet at most where only one of the two
mantissas is even. -/
theorem Valid.ends (hx : x.Valid) (hy : y.Valid) (h : x.Below y) : ∃ a b : Nat, ∃ u : ℚ, 0 < u ∧
    x.high = a * u ∧ y.low = b * u ∧ a ≤ b ∧
      (a = b → x.mantissa % 2 = 0 → y.mantissa % 2 = 0 → False) := by
  have hge := hx.ge
  have hlt := hx.lt
  rcases h with h | ⟨he, hm⟩
  · obtain ⟨k, hk⟩ := Int.eq_ofNat_of_zero_le (show 0 ≤ y.exponent - x.exponent - 1 by omega)
    have hscale : (2 : ℚ) ^ (y.exponent - 2) = (2 * 2 ^ k : Nat) * 2 ^ (x.exponent - 2) := by
      rw [show y.exponent - 2 = (k : ℤ) + 1 + (x.exponent - 2) by omega,
        zpow_add₀ (by norm_num), zpow_add₀ (by norm_num), zpow_natCast]
      push_cast
      ring
    have hfull := hy.full (by omega)
    have hnarrow := hy.narrow
    refine ⟨_, (4 * y.mantissa - if y.narrowBelow then 1 else 2) * (2 * 2 ^ k),
      2 ^ (x.exponent - 2), by positivity, rfl, ?_, ?_⟩
    · rw [low, hscale, ← mul_assoc, ← Nat.cast_mul]
    · have hpos := Nat.two_pow_pos k
      have hdouble : ∀ b : Nat, b * 2 ≤ b * (2 * 2 ^ k) := fun b => Nat.mul_le_mul_left _ (by omega)
      cases hn : y.narrowBelow with
      | true =>
        have hmin := (hnarrow.1 hn).1
        have := hdouble (4 * y.mantissa - 1)
        simp only [if_true]
        constructor
        · omega
        · intro heq _ _
          omega
      | false =>
        have hmin : y.mantissa ≠ 2 ^ 52 := fun hmin => by
          rw [hnarrow.2 ⟨hmin, by omega⟩] at hn
          cases hn
        have := hdouble (4 * y.mantissa - 2)
        simp only [Bool.false_eq_true, if_false]
        constructor
        · omega
        · intro heq _ _
          omega
  · have hn : y.narrowBelow = false := by
      rw [Bool.eq_false_iff]
      intro hn
      have := hy.narrow.1 hn
      have := hx.full (by omega)
      omega
    refine ⟨_, _, 2 ^ (x.exponent - 2), by positivity, rfl, by rw [low, he], ?_⟩
    rw [hn]
    simp only [Bool.false_eq_true, if_false]
    constructor
    · omega
    · intro heq _ _
      omega

theorem Valid.not_reads (hx : x.Valid) (hy : y.Valid) (h : x.Below y) (hxq : x.Reads q)
    (hyq : y.Reads q) : False := by
  obtain ⟨a, b, u, hu, hhigh, hlow, hab, hmeet⟩ := hx.ends hy h
  have hle : (b : ℚ) * u ≤ a * u := hlow ▸ hhigh ▸ hyq.low_le.trans hxq.le_high
  have hba : b ≤ a := Nat.cast_le.1 (le_of_mul_le_mul_right hle hu)
  obtain rfl : a = b := Nat.le_antisymm hab hba
  have hq : q = x.high := le_antisymm hxq.le_high ((hhigh.trans hlow.symm).le.trans hyq.low_le)
  exact hmeet rfl (hxq.even (.inr hq)) (hyq.even (.inl (hq.trans (hhigh.trans hlow.symm))))

/-- **A number rounds to one double only.** -/
theorem Reads.unique (hx : x.Valid) (hy : y.Valid) (hxq : x.Reads q) (hyq : y.Reads q) : x = y := by
  have hxy : ¬ x.Below y := fun h => hx.not_reads hy h hxq hyq
  have hyx : ¬ y.Below x := fun h => hy.not_reads hx h hyq hxq
  unfold Below at hxy hyx
  have he : x.exponent = y.exponent := by omega
  have hm : x.mantissa = y.mantissa := by omega
  have hn : x.narrowBelow = y.narrowBelow := by
    rw [Bool.eq_iff_iff, hx.narrow, hy.narrow, he, hm]
  cases x
  cases y
  cases he
  cases hm
  cases hn
  rfl

/-! ## The shortest decimal -/

/-- The number that a magnitude is. -/
def value (x : Binary) : ℚ := x.mantissa * 2 ^ x.exponent

/-- A magnitude is the quotient of two whole numbers. -/
theorem value_mul (x : Binary) : x.value * (2 ^ (-x.exponent).toNat : Nat) =
    (x.mantissa * 2 ^ x.exponent.toNat : Nat) := by
  rw [value, mul_assoc, Nat.cast_pow, Nat.cast_ofNat, zpow_mul_pow_toNat (by norm_num)]
  push_cast
  rfl

theorem pow_leadingExponent_le (hpos : 0 < x.mantissa) :
    (10 : ℚ) ^ x.leadingExponent ≤ x.value := by
  have hvalue := x.value_mul
  have hnum : 0 < x.mantissa * 2 ^ x.exponent.toNat := Nat.mul_pos hpos (Nat.two_pow_pos _)
  have hden : 0 < 2 ^ (-x.exponent).toNat := Nat.two_pow_pos _
  unfold leadingExponent
  simp only [Nat.pow_eq]
  generalize x.mantissa * 2 ^ x.exponent.toNat = num at *
  generalize 2 ^ (-x.exponent).toNat = den at *
  have hdenq : (0 : ℚ) < den := Nat.cast_pos.2 hden
  refine le_of_mul_le_mul_right ?_ hdenq
  rw [hvalue]
  split
  · rename_i hle
    have hfirst := pow_length_toDigits_le (Nat.div_pos hle hden)
    have hlength := Nat.length_toDigits_pos (b := 10) (n := num / den)
    have hnat : 10 ^ ((Nat.toDigits 10 (num / den)).length - 1) * den ≤ num :=
      (Nat.mul_le_mul_right _ hfirst).trans (Nat.div_mul_le_self num den)
    rw [show ((Nat.toDigits 10 (num / den)).length : ℤ) - 1 =
      ((Nat.toDigits 10 (num / den)).length - 1 : Nat) by omega, zpow_natCast]
    exact_mod_cast hnat
  · have hlast := lt_pow_length_toDigits (den / num)
    have hnat : den ≤ num * 10 ^ (Nat.toDigits 10 (den / num)).length :=
      (Nat.lt_mul_div_succ den hnum).le.trans (Nat.mul_le_mul_left _ hlast)
    rw [zpow_neg, zpow_natCast, inv_mul_le_iff₀ (by positivity), mul_comm]
    exact_mod_cast hnat

/-- The quotient whose whole part is taken. -/
theorem value_mul_floor (x : Binary) (p : Int) :
    x.value * (2 ^ (-x.exponent).toNat * 10 ^ p.toNat : Nat) =
      (x.mantissa * 2 ^ x.exponent.toNat * 10 ^ (-p).toNat : Nat) * 10 ^ p := by
  have hten := zpow_mul_pow_toNat (show (10 : ℚ) ≠ 0 by norm_num) p
  rw [Nat.cast_mul, ← mul_assoc, value_mul, Nat.cast_mul (x.mantissa * _), Nat.cast_pow,
    Nat.cast_ofNat, ← hten]
  push_cast
  ring

theorem floorAt_spec (x : Binary) (p : Int) :
    (x.floorAt p : ℚ) * 10 ^ p ≤ x.value ∧ x.value < (x.floorAt p + 1 : Nat) * 10 ^ p := by
  have hvalue := x.value_mul_floor p
  unfold floorAt
  simp only [Nat.pow_eq]
  have hden : 0 < 2 ^ (-x.exponent).toNat * 10 ^ p.toNat := by positivity
  generalize x.mantissa * 2 ^ x.exponent.toNat * 10 ^ (-p).toNat = num at *
  generalize 2 ^ (-x.exponent).toNat * 10 ^ p.toNat = den at *
  have hdenq : (0 : ℚ) < den := Nat.cast_pos.2 hden
  have hten : (0 : ℚ) < 10 ^ p := by positivity
  constructor
  · have hfloor : ((num / den : Nat) : ℚ) * den ≤ num := by
      exact_mod_cast Nat.div_mul_le_self num den
    refine le_of_mul_le_mul_right ?_ hdenq
    rw [hvalue, mul_right_comm]
    exact mul_le_mul_of_nonneg_right hfloor hten.le
  · have hfloor : (num : ℚ) < (num / den + 1 : Nat) * den := by
      exact_mod_cast Nat.mul_comm _ _ ▸ Nat.lt_mul_div_succ num hden
    refine lt_of_mul_lt_mul_right ?_ hdenq.le
    rw [hvalue, mul_right_comm]
    exact mul_lt_mul_of_pos_right hfloor hten

theorem reads_of_roundedAt {tie : Tie} {p : Int} {d : Decimal} (h : x.roundedAt tie p = some d) :
    x.Reads d.value := by
  rw [Decimal.value, ← isReadFrom_iff]
  unfold roundedAt at h
  dsimp only at h
  split at h
  · cases h
  · cases h
    assumption
  · cases h
    assumption
  · rename_i hc hc'
    split at h <;> cases h
    · assumption
    · assumption
    · assumption
    · split <;> assumption

/-- The interval around a magnitude is wider than a unit of the last of seventeen digits. -/
theorem Valid.wide (hx : x.Valid) (hpos : 0 < x.mantissa) :
    x.low < x.value ∧ x.value < x.high ∧ (10 : ℚ) ^ (x.leadingExponent - 16) < x.high - x.low := by
  have hu : (0 : ℚ) < 2 ^ (x.exponent - 2) := by positivity
  have hvalue : x.value = 4 * (x.mantissa * 2 ^ (x.exponent - 2)) := by
    rw [value, zpow_sub₀ (by norm_num)]
    ring
  have hlead : (10 : ℚ) ^ (x.leadingExponent - 16) * 10 ^ 16 ≤ x.value := by
    rw [← zpow_natCast, ← zpow_add₀ (by norm_num)]
    simpa using pow_leadingExponent_le hpos
  have hhigh : x.high = 4 * (x.mantissa * 2 ^ (x.exponent - 2)) + 2 * 2 ^ (x.exponent - 2) := by
    rw [high]
    push_cast
    ring
  cases hn : x.narrowBelow with
  | true =>
    have hmin : (x.mantissa : ℚ) * 2 ^ (x.exponent - 2) = 2 ^ 52 * 2 ^ (x.exponent - 2) := by
      rw [(hx.narrow.1 hn).1, Nat.cast_pow, Nat.cast_ofNat]
    have hlow : x.low = 4 * (x.mantissa * 2 ^ (x.exponent - 2)) - 2 ^ (x.exponent - 2) := by
      rw [low, hn, if_pos rfl, Nat.cast_sub (by omega)]
      push_cast
      ring
    rw [hvalue] at hlead
    rw [hlow, hhigh, hvalue]
    refine ⟨by linarith, by linarith, by linarith⟩
  | false =>
    have hmax : (x.mantissa : ℚ) * 2 ^ (x.exponent - 2) ≤ 2 ^ 53 * 2 ^ (x.exponent - 2) :=
      mul_le_mul_of_nonneg_right (by exact_mod_cast hx.lt.le) hu.le
    have hlow : x.low = 4 * (x.mantissa * 2 ^ (x.exponent - 2)) - 2 * 2 ^ (x.exponent - 2) := by
      rw [low, hn, if_neg Bool.false_ne_true, Nat.cast_sub (by omega)]
      push_cast
      ring
    rw [hvalue] at hlead
    rw [hlow, hhigh, hvalue]
    refine ⟨by linarith, by linarith, by linarith⟩

theorem roundedAt_ne_none {tie : Tie} {p : Int} (h : x.Reads (x.floorAt p * 10 ^ p) ∨
    x.Reads ((x.floorAt p + 1 : Nat) * 10 ^ p)) : x.roundedAt tie p ≠ none := by
  rw [← isReadFrom_iff, ← isReadFrom_iff] at h
  unfold roundedAt
  dsimp only
  split
  · simp_all
  · exact Option.some_ne_none _
  · exact Option.some_ne_none _
  · split <;> exact Option.some_ne_none _

/-- Of the two neighbours with seventeen digits one is near enough. -/
theorem Valid.roundedAt_ne_none (hx : x.Valid) (hpos : 0 < x.mantissa) (tie : Tie) :
    x.roundedAt tie (x.leadingExponent - 16) ≠ none := by
  obtain ⟨hlow, hhigh, hwide⟩ := hx.wide hpos
  obtain ⟨hfloor, hceil⟩ := x.floorAt_spec (x.leadingExponent - 16)
  apply Binary.roundedAt_ne_none
  by_cases hbelow : x.low < x.floorAt (x.leadingExponent - 16) * 10 ^ (x.leadingExponent - 16)
  · have hinside := hfloor.trans_lt hhigh
    exact .inl ⟨hbelow.le, hinside.le, fun h => absurd h (not_or.2 ⟨hbelow.ne', hinside.ne⟩)⟩
  · right
    have hinside := hlow.trans hceil
    have habove : ((x.floorAt (x.leadingExponent - 16) + 1 : Nat) : ℚ) *
        10 ^ (x.leadingExponent - 16) < x.high := by
      push_cast
      linarith
    exact ⟨hinside.le, habove.le, fun h => absurd h (not_or.2 ⟨hinside.ne', habove.ne⟩)⟩

/-- **The shortest decimal rounds to the double.** -/
theorem reads_shortest (hx : x.Valid) (hpos : 0 < x.mantissa) (tie : Tie) :
    x.Reads (x.shortest tie).value := by
  unfold shortest
  dsimp only
  split
  · rename_i p hfound
    obtain ⟨n, -, hn⟩ := List.exists_of_findSome?_eq_some hfound
    have hreads := reads_of_roundedAt hn
    rw [Decimal.value] at hreads ⊢
    rw [zpow_add_one₀ (by norm_num)]
    convert hreads using 1
    push_cast
    ring
  · rename_i d _ hfound
    obtain ⟨n, -, hn⟩ := List.exists_of_findSome?_eq_some hfound
    exact reads_of_roundedAt hn
  · rename_i hnone
    exact absurd (List.findSome?_eq_none_iff.1 hnone 16 (by simp)) (hx.roundedAt_ne_none hpos tie)

end Binary

end TuneBlocks
