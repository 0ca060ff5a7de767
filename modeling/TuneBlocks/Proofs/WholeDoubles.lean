import Mathlib.Tactic.Ring

/-!
# Whole numbers as doubles

A double counts exactly as far as its mantissa has digits: up to `2 ^ 53` the whole numbers are
doubles (`isWhole_ofNat`), and their sums and their order are those of the whole numbers
(`IsWhole.add`, `IsWhole.lt_iff`). All of it rests on one fact about rounding: a number that a full
mantissa can hold is rounded to itself, however its digits were placed (`round_exact`).
-/

namespace TuneBlocks

open Float.Model Float.Model.UnpackedFloat

namespace Doubles

/-! ## Exact rounding -/

/-- A mantissa with all its digits. -/
def Full (m : Nat) : Prop := 2 ^ 52 ≤ m ∧ m < 2 ^ 53

theorem Full.pos (h : Full m) : 0 < m := Nat.lt_of_lt_of_le (Nat.two_pow_pos 52) h.1

theorem Full.log2_eq (h : Full m) : m.log2 = 52 :=
  (Nat.log2_eq_iff h.pos.ne').2 h

/-- Digits that are zero are shifted out without a trace. -/
theorem shiftRight_exact (m t : Nat) :
    (⟨m * 2 ^ t, false, false⟩ : ExtendedMantissa) >>> t = ⟨m, false, false⟩ := by
  change t.repeat ExtendedMantissa.shiftRightOne _ = _
  induction t generalizing m with
  | zero => rw [Nat.repeat, Nat.pow_zero, Nat.mul_one]
  | succ t ih =>
    have hdouble : m * 2 ^ (t + 1) = m * 2 * 2 ^ t := by ring
    rw [Nat.repeat, hdouble, ih, ExtendedMantissa.shiftRightOne]
    simp

/-- The exponent for which the mantissa is full. -/
theorem targetExponent_eq {m : Nat} {e e' : Int} (hm : m.log2 + e = 52 + e') (he' : -1074 ≤ e') :
    Format.binary64.targetExponent (totalExponent m e) = e' := by
  have hmin : Format.binary64.minExponent = -1074 := rfl
  have hbits : Format.binary64.mantissaBits = 53 := rfl
  rw [Format.targetExponent, totalExponent, hmin, hbits]
  omega

theorem log2_mul_two_pow {m : Nat} (hm : 0 < m) (t : Nat) :
    (m * 2 ^ t).log2 = m.log2 + t := by
  rw [Nat.log2_eq_iff (Nat.mul_pos hm (Nat.two_pow_pos t)).ne', Nat.pow_add, Nat.add_right_comm,
    Nat.pow_add]
  constructor
  · exact Nat.mul_le_mul_right _ (Nat.log2_self_le hm.ne')
  · exact Nat.mul_lt_mul_of_pos_right Nat.lt_log2_self (Nat.two_pow_pos t)

/-- Zeros behind a full mantissa are rounded away. -/
theorem roundWithAccuracy_exact (h : Full m) (s : Sign) {e : Int} (he : -1074 ≤ e) (t : Nat) :
    roundWithAccuracy .binary64 s (m * 2 ^ t) (e - t) .exact = .finite s m e h.pos := by
  have hfirst : shiftToTargetExponent .binary64 (m * 2 ^ t) (e - t) .exact =
      (⟨m, false, false⟩, e) := by
    have hlog : (m * 2 ^ t).log2 = 52 + t := by rw [log2_mul_two_pow h.pos, h.log2_eq]
    rw [shiftToTargetExponent, targetExponent_eq (by omega) he, shiftToExponent]
    have hshift : (e - (e - t)).toNat = t := by omega
    simp only [hshift, ExtendedMantissa.ofMantissaAndAccuracy, shiftRight_exact]
    rw [Int.sub_add_cancel]
  have hsecond : shiftToTargetExponent .binary64 m e .exact = (⟨m, false, false⟩, e) := by
    have hlog := h.log2_eq
    rw [shiftToTargetExponent, targetExponent_eq (by omega) he, shiftToExponent]
    have hshift : (e - e).toNat = 0 := by omega
    have hnone := shiftRight_exact m 0
    rw [Nat.pow_zero, Nat.mul_one] at hnone
    simp only [hshift, ExtendedMantissa.ofMantissaAndAccuracy, hnone]
    rw [Int.natCast_zero, Int.add_zero]
  rw [roundWithAccuracy, hfirst]
  dsimp only [ExtendedMantissa.roundedMantissa, ExtendedMantissa.accuracy,
    Accuracy.roundToNearestEven]
  rw [hsecond]
  exact dif_neg h.pos.ne'

theorem round_eq {n : Nat} {e e' : Int}
    (h : Format.binary64.targetExponent (totalExponent n e) = e') (s : Sign) :
    UnpackedFloat.round .binary64 s n e =
      roundWithAccuracy .binary64 s (n <<< (e - e').toNat) (e - (e - e').toNat) .exact := by
  subst h
  rfl

/-- **A number that a full mantissa can hold is rounded to itself.** -/
theorem round_exact (h : Full m) (s : Sign) {e : Int} (he : -1074 ≤ e) {n : Nat} {t u : Nat}
    (hn : n * 2 ^ u = m * 2 ^ t) :
    UnpackedFloat.round .binary64 s n (e + u - t) = .finite s m e h.pos := by
  have hpos : 0 < n := Nat.pos_of_mul_pos_right (hn ▸ Nat.mul_pos h.pos (Nat.two_pow_pos t))
  have hlog : n.log2 + u = 52 + t := by
    rw [← log2_mul_two_pow hpos, hn, log2_mul_two_pow h.pos, h.log2_eq]
  have htarget : Format.binary64.targetExponent (totalExponent n (e + u - t)) = e :=
    targetExponent_eq (by omega) he
  rw [round_eq htarget]
  rcases Nat.le_total u t with hle | hle
  · -- digits are left over
    obtain ⟨d, rfl⟩ := Nat.exists_eq_add_of_le hle
    have hn' : n = m * 2 ^ d := by
      rw [Nat.add_comm, Nat.pow_add, ← Nat.mul_assoc] at hn
      exact Nat.eq_of_mul_eq_mul_right (Nat.two_pow_pos u) hn
    have hshift : (e + u - (u + d : Nat) - e).toNat = 0 := by omega
    have hexp : e + u - (u + d : Nat) - (0 : Nat) = e - d := by omega
    rw [hshift, Nat.shiftLeft_zero, hexp, hn']
    exact roundWithAccuracy_exact h s he d
  · -- digits are missing
    obtain ⟨d, rfl⟩ := Nat.exists_eq_add_of_le hle
    have hn' : n * 2 ^ d = m := by
      rw [Nat.add_comm, Nat.pow_add, ← Nat.mul_assoc] at hn
      exact Nat.eq_of_mul_eq_mul_right (Nat.two_pow_pos t) hn
    have hshift : (e + (t + d : Nat) - t - e).toNat = d := by omega
    have hexp : e + (t + d : Nat) - t - d = e - (0 : Nat) := by omega
    rw [hshift, Nat.shiftLeft_eq, hexp, hn']
    have hround := roundWithAccuracy_exact h s he 0
    rwa [Nat.pow_zero, Nat.mul_one] at hround

/-! ## Packing -/

theorem unpackSign_packComponents (spec : Format) (s : Sign) (e : BitVec spec.exponentBits)
    (m : BitVec spec.mantissaBitsWithoutImplicit) :
    unpackSign (packComponents spec s e m) = s.toBitVec := by
  apply BitVec.eq_of_getLsbD_eq
  intro i hi
  obtain rfl : i = 0 := by omega
  unfold unpackSign packComponents
  simp [BitVec.getLsbD_append, BitVec.getElem_append]

/-- The first digit of a full mantissa need not be stored. -/
theorem toNat_implicit (h : Full m) : (1#1 ++ BitVec.ofNat 52 m).toNat = m := by
  obtain ⟨hlo, hhi⟩ := h
  rw [BitVec.toNat_append, ← Nat.shiftLeft_add_eq_or_of_lt (BitVec.isLt _), BitVec.toNat_ofNat,
    BitVec.toNat_ofNat, Nat.shiftLeft_eq]
  omega

theorem finite_congr {s s' : Sign} {m m' : Nat} {e e' : Int} {h : 0 < m} {h' : 0 < m'} (hs : s = s')
    (hm : m = m') (he : e = e') : finite s m e h = finite s' m' e' h' := by
  subst hs hm he
  rfl

theorem pack_full (h : Full m) (s : Sign) {e : Int} {b : Nat} (hb : (b : Int) = e + 1075)
    (hhi : b < 2047) : UnpackedFloat.pack .binary64 (.finite s m e h.pos) =
      packComponents .binary64 s (BitVec.ofNat 11 b) (BitVec.ofNat 52 m) := by
  have hbias : (e + (Format.exponentBias .binary64 : Nat) + (52 : Nat)).toNat = b := by
    change (e + (1023 : Nat) + (52 : Nat)).toNat = b
    omega
  have hfits : ¬ 2 ^ 11 ≤ b + 1 := by omega
  have hbits : m.log2 + 1 = Format.binary64.mantissaBits := by
    rw [h.log2_eq]
    rfl
  unfold UnpackedFloat.pack
  dsimp only
  rw [hbias, if_neg hfits, if_pos hbits]

theorem unpack_full (h : Full m) (s : Sign) {e : Int} {b : Nat} (hb : (b : Int) = e + 1075)
    (hlo : 0 < b) (hhi : b < 2047) :
    UnpackedFloat.unpack .binary64
        (packComponents .binary64 s (BitVec.ofNat 11 b) (BitVec.ofNat 52 m)) =
      .finite s m e h.pos := by
  have hexponent : unpackExponent
      (packComponents .binary64 s (BitVec.ofNat 11 b) (BitVec.ofNat 52 m)) = BitVec.ofNat 11 b :=
    unpackExponent_packComponents
  have htoNat : (BitVec.ofNat 11 b).toNat = b := by
    rw [BitVec.toNat_ofNat]
    omega
  have hnotOnes : unpackExponent
      (packComponents .binary64 s (BitVec.ofNat 11 b) (BitVec.ofNat 52 m)) ≠ -1#_ := by
    rw [hexponent]
    intro hones
    have := congrArg BitVec.toNat hones
    rw [htoNat] at this
    change b = 2047 at this
    omega
  have hnotZero : unpackExponent
      (packComponents .binary64 s (BitVec.ofNat 11 b) (BitVec.ofNat 52 m)) ≠ 0#_ := by
    rw [hexponent]
    intro hzero
    have := congrArg BitVec.toNat hzero
    rw [htoNat] at this
    change b = 0 at this
    omega
  unfold UnpackedFloat.unpack
  refine (if_neg hnotOnes).trans ((if_neg hnotZero).trans (finite_congr ?_ ?_ ?_))
  · rw [unpackSign_packComponents]
    cases s <;> rfl
  · rw [unpackMantissa_packComponents]
    exact toNat_implicit h
  · rw [hexponent, htoNat]
    change (b : Int) - ((1023 : Nat) + (52 : Nat)) = e
    omega

theorem unpack_pack_full (h : Full m) (s : Sign) {e : Int} (hlo : -1074 ≤ e) (hhi : e ≤ 971) :
    (Float.Model.pack (.finite s m e h.pos)).unpack = .finite s m e h.pos := by
  obtain ⟨b, hb⟩ : ∃ b : Nat, (b : Int) = e + 1075 := ⟨(e + 1075).toNat, by omega⟩
  have hpack := pack_full h s hb (by omega)
  have hunpack := unpack_full h s hb (by omega) (by omega)
  rw [← hpack] at hunpack
  exact hunpack

theorem unpack_pack_zero (s : Sign) :
    (Float.Model.pack (.zero s)).unpack = .zero s := by
  cases s <;> rfl

/-! ## Whole numbers -/

/-- The float is a whole number, written with a full mantissa. -/
inductive Whole : Nat → UnpackedFloat → Prop
  | zero : Whole 0 (.zero .positive)
  | finite {m f n : Nat} (h : Full m) : m * 2 ^ f = n * 2 ^ 52 →
      Whole n (.finite .positive m (f - 52) h.pos)

theorem exists_full {n : Nat} (hpos : 0 < n) (hn : n ≤ 2 ^ 53) :
    ∃ m f, Full m ∧ m * 2 ^ f = n * 2 ^ 52 := by
  rcases Nat.lt_or_eq_of_le hn with hlt | rfl
  · have hlog : n.log2 ≤ 52 := Nat.le_of_lt_succ ((Nat.log2_lt hpos.ne').2 hlt)
    obtain ⟨d, hd⟩ := Nat.exists_eq_add_of_le' hlog
    refine ⟨n * 2 ^ d, n.log2, ⟨?_, ?_⟩, ?_⟩
    · rw [hd, Nat.add_comm, Nat.pow_add]
      exact Nat.mul_le_mul_right _ (Nat.log2_self_le hpos.ne')
    · rw [show 53 = n.log2 + 1 + d by omega, Nat.pow_add]
      exact Nat.mul_lt_mul_of_pos_right Nat.lt_log2_self (Nat.two_pow_pos d)
    · rw [hd, Nat.pow_add, Nat.mul_assoc]
  · exact ⟨2 ^ 52, 53, ⟨Nat.le_refl _, by decide⟩, Nat.mul_comm _ _⟩

theorem whole_round {n s g : Nat} (hpos : 0 < n) (hn : n ≤ 2 ^ 53) (hs : s * 2 ^ g = n * 2 ^ 52) :
    Whole n (UnpackedFloat.round .binary64 .positive s (g - 52)) := by
  obtain ⟨m, f, hfull, hm⟩ := exists_full hpos hn
  have hround := round_exact hfull .positive (e := f - 52) (by omega) (hs.trans hm.symm)
  rw [show (f - 52 + g - f : Int) = g - 52 by omega] at hround
  rw [hround]
  exact .finite hfull hm

theorem normalize_of_pos (spec : Format) {n : Nat} (hpos : 0 < n) (e : Int) (s : Sign) :
    UnpackedFloat.normalize spec n e s = UnpackedFloat.round spec .positive n e := by
  have hgt : compare (n : Int) 0 = .gt := by
    rw [compare_gt_iff_gt]
    omega
  rw [UnpackedFloat.normalize, hgt]
  rfl

theorem Whole.ofNat {n : Nat} (hn : n ≤ 2 ^ 53) : Whole n (UnpackedFloat.ofNat .binary64 n) := by
  rcases Nat.eq_zero_or_pos n with rfl | hpos
  · exact .zero
  · rw [UnpackedFloat.ofNat, UnpackedFloat.ofInt, normalize_of_pos _ hpos]
    exact whole_round hpos hn (g := 52) rfl

theorem Whole.add {j k : Nat} {x y : UnpackedFloat} (hx : Whole j x) (hy : Whole k y)
    (hle : j + k ≤ 2 ^ 53) : Whole (j + k) (UnpackedFloat.add .binary64 x y) := by
  cases hx with
  | zero =>
    rw [Nat.zero_add]
    cases hy with
    | zero => exact .zero
    | finite h hm => exact .finite h hm
  | @finite m₁ f₁ _ h₁ hm₁ =>
    cases hy with
    | zero => exact .finite h₁ hm₁
    | @finite m₂ f₂ _ h₂ hm₂ =>
      obtain ⟨g, hg⟩ : ∃ g, g = min f₁ f₂ := ⟨_, rfl⟩
      have hmin : min (f₁ - 52 : Int) (f₂ - 52) = g - 52 := by omega
      have hshift₁ : ((f₁ : Int) - 52 - (g - 52)).toNat = f₁ - g := by omega
      have hshift₂ : ((f₂ : Int) - 52 - (g - 52)).toNat = f₂ - g := by omega
      have hsum : (m₁ * 2 ^ (f₁ - g) + m₂ * 2 ^ (f₂ - g)) * 2 ^ g = (j + k) * 2 ^ 52 := by
        rw [Nat.add_mul, Nat.mul_assoc, Nat.mul_assoc, ← Nat.pow_add, ← Nat.pow_add,
          Nat.sub_add_cancel (by omega), Nat.sub_add_cancel (by omega), hm₁, hm₂, Nat.add_mul]
      have hpos : 0 < m₁ * 2 ^ (f₁ - g) + m₂ * 2 ^ (f₂ - g) :=
        Nat.add_pos_left (Nat.mul_pos h₁.pos (Nat.two_pow_pos _)) _
      have hpos' : 0 < j + k :=
        Nat.pos_of_mul_pos_right (hsum ▸ Nat.mul_pos hpos (Nat.two_pow_pos g))
      change Whole (j + k) (UnpackedFloat.normalize .binary64
        ((m₁ <<< (f₁ - 52 - min (f₁ - 52 : Int) (f₂ - 52)).toNat : Nat) +
          (m₂ <<< (f₂ - 52 - min (f₁ - 52 : Int) (f₂ - 52)).toNat : Nat))
        (min (f₁ - 52 : Int) (f₂ - 52)) .positive)
      rw [hmin, hshift₁, hshift₂, Nat.shiftLeft_eq, Nat.shiftLeft_eq, ← Int.natCast_add,
        normalize_of_pos _ hpos]
      exact whole_round hpos' hle hsum

/-- Multiplication by one. -/
theorem Whole.mul_one {n : Nat} {x : UnpackedFloat} (hx : Whole n x) :
    Whole n (UnpackedFloat.mul .binary64 x (.finite .positive (2 ^ 52) (-52) (by decide))) := by
  cases hx with
  | zero => exact .zero
  | @finite m f _ h hm =>
    have hmul : UnpackedFloat.mul .binary64 (.finite .positive m (f - 52) h.pos)
        (.finite .positive (2 ^ 52) (-52) (by decide)) = .finite .positive m (f - 52) h.pos :=
      roundWithAccuracy_exact h .positive (e := f - 52) (by omega) 52
    rw [hmul]
    exact .finite h hm

theorem Whole.unpack_pack {n : Nat} {x : UnpackedFloat} (hx : Whole n x) (hn : n ≤ 2 ^ 53) :
    (Float.Model.pack x).unpack = x := by
  cases hx with
  | zero => exact unpack_pack_zero .positive
  | @finite m f _ h hm =>
    have hf : f ≤ 53 := by
      apply (Nat.pow_le_pow_iff_right (a := 2) (by decide)).1
      apply Nat.le_trans _ hn
      apply Nat.le_of_mul_le_mul_right _ (Nat.two_pow_pos 52)
      rw [← hm, Nat.mul_comm]
      exact Nat.mul_le_mul_right _ h.1
    exact unpack_pack_full h .positive (by omega) (by omega)

/-- A larger exponent makes a larger number, whatever the mantissas are. -/
theorem lt_of_exponent_lt {m₁ m₂ f₁ f₂ j k : Nat} (h₁ : Full m₁) (h₂ : Full m₂)
    (hj : m₁ * 2 ^ f₁ = j * 2 ^ 52) (hk : m₂ * 2 ^ f₂ = k * 2 ^ 52) (hlt : f₁ < f₂) : j < k := by
  apply Nat.lt_of_mul_lt_mul_right (a := 2 ^ 52)
  calc j * 2 ^ 52 = m₁ * 2 ^ f₁ := hj.symm
    _ < 2 ^ 53 * 2 ^ f₁ := Nat.mul_lt_mul_of_pos_right h₁.2 (Nat.two_pow_pos f₁)
    _ = 2 ^ 52 * 2 ^ (f₁ + 1) := by ring
    _ ≤ m₂ * 2 ^ f₂ := Nat.mul_le_mul h₂.1 (Nat.pow_le_pow_right (by decide) hlt)
    _ = k * 2 ^ 52 := hk

theorem lt_iff_of_exponent_eq {m₁ m₂ f j k : Nat} (hj : m₁ * 2 ^ f = j * 2 ^ 52)
    (hk : m₂ * 2 ^ f = k * 2 ^ 52) : m₁ < m₂ ↔ j < k := by
  rw [← Nat.mul_lt_mul_right (Nat.two_pow_pos f), hj, hk, Nat.mul_lt_mul_right (Nat.two_pow_pos 52)]

theorem Whole.lt_iff {j k : Nat} {x y : UnpackedFloat} (hx : Whole j x) (hy : Whole k y) :
    x.lt y = true ↔ j < k := by
  rw [UnpackedFloat.lt, beq_iff_eq]
  cases hy with
  | zero =>
    constructor
    · intro h
      cases hx <;> cases h
    · intro h
      exact absurd h (Nat.not_lt_zero j)
  | @finite m₂ f₂ _ h₂ hm₂ =>
    cases hx with
    | zero =>
      have hpos : 0 < k :=
        Nat.pos_of_mul_pos_right (hm₂ ▸ Nat.mul_pos h₂.pos (Nat.two_pow_pos f₂))
      exact ⟨fun _ => hpos, fun _ => rfl⟩
    | @finite m₁ f₁ _ h₁ hm₁ =>
      change some ((compare (f₁ - 52 : Int) (f₂ - 52)).then (compare m₁ m₂)) = some .lt ↔ j < k
      simp only [Option.some.injEq, Ordering.then_eq_lt, compare_lt_iff_lt, compare_eq_iff_eq]
      rcases Nat.lt_trichotomy f₁ f₂ with hlt | rfl | hgt
      · have hjk := lt_of_exponent_lt h₁ h₂ hm₁ hm₂ hlt
        exact ⟨fun _ => hjk, fun _ => .inl (by omega)⟩
      · rw [← lt_iff_of_exponent_eq hm₁ hm₂]
        exact ⟨fun h => (h.resolve_left (lt_irrefl _)).2, fun h => .inr ⟨rfl, h⟩⟩
      · have hkj := lt_of_exponent_lt h₂ h₁ hm₂ hm₁ hgt
        constructor
        · rintro (h | ⟨h, -⟩) <;> omega
        · intro h
          omega

end Doubles

open Doubles

/-- The double is a whole number. -/
def IsWhole (x : Float) (n : Nat) : Prop := Whole n x.toModel.unpack

theorem isWhole_pack {n : Nat} {u : UnpackedFloat} (h : Whole n u) (hn : n ≤ 2 ^ 53) :
    IsWhole (.ofModel (.pack u)) n := by
  rw [IsWhole]
  change Whole n (Float.Model.pack u).unpack
  rwa [h.unpack_pack hn]

theorem IsWhole.add {x y : Float} {j k : Nat} (hx : IsWhole x j) (hy : IsWhole y k)
    (h : j + k ≤ 2 ^ 53) : IsWhole (x + y) (j + k) :=
  isWhole_pack (Whole.add hx hy h) h

theorem isWhole_ofNat {n : Nat} (hn : n ≤ 2 ^ 53) : IsWhole (Float.ofNat n) n := by
  rcases Nat.lt_or_eq_of_le hn with hlt | rfl
  · have hsmall : n.toUInt64.toNat = n := by
      rw [Nat.toUInt64_eq, UInt64.toNat_ofNat_of_lt']
      exact Nat.lt_of_lt_of_le hlt (by decide)
    have hfast : Float.ofNat n = n.toUInt64.toFloat * .ofBits 0x3FF0000000000000 :=
      dif_pos ⟨hlt, Nat.zero_le 22⟩
    have hconverted : IsWhole n.toUInt64.toFloat n := by
      apply isWhole_pack _ hn
      have hwhole := Whole.ofNat hn
      rw [UnpackedFloat.ofUInt64, hsmall]
      exact hwhole
    rw [hfast]
    exact isWhole_pack (Whole.mul_one hconverted) hn
  · -- the first number that is not read digit by digit
    have hslow : (Float.ofNat (2 ^ 53)).toModel.unpack =
        .finite .positive (2 ^ 52) ((53 : Nat) - 52) (Nat.two_pow_pos 52) := rfl
    rw [IsWhole, hslow]
    exact .finite ⟨Nat.le_refl _, by decide⟩ (Nat.mul_comm _ _)

theorem IsWhole.lt_iff {x y : Float} {j k : Nat} (hx : IsWhole x j) (hy : IsWhole y k) :
    x < y ↔ j < k := by
  rw [← Whole.lt_iff hx hy]
  exact decide_eq_true_iff

end TuneBlocks
