import TuneBlocks.Decimal.Format
import TuneBlocks.Decimal.Read
import TuneBlocks.Proofs.FloatOrder
import TuneBlocks.Proofs.ShortestDecimals
import TuneBlocks.Proofs.Spelling

/-!
# Displayed numbers can be told apart

A displayed magnitude is a numeral: the decimal that is read from it is the one that was laid out,
written with or without a point (`readDecimal_positional`). That decimal rounds to the magnitude,
and to no other. Signs and the words for what is not finite begin with characters that no numeral
begins with, so a displayed double determines the double (`display_injective`).
-/

namespace TuneBlocks

open Float.Model.UnpackedFloat (unpackExponent unpackMantissa)

/-! ## Numerals -/

namespace Numeral

theorem digitsValue_eq (start : Nat) (ds : List Char) :
    digitsValue start ds = Nat.ofDigitChars 10 ds start := rfl

theorem digitsValue_append (ds ds' : List Char) :
    digitsValue (digitsValue 0 ds) ds' = digitsValue 0 (ds ++ ds') := List.foldl_append.symm

/-- The digits of a number, with zeros on both sides. -/
theorem digitsValue_toDigits (front back n : Nat) :
    digitsValue 0 (List.replicate front '0' ++ Nat.toDigits 10 n ++ List.replicate back '0') =
      n * 10 ^ back := by
  rw [digitsValue_eq, Nat.ofDigitChars_append, Nat.ofDigitChars_append,
    Nat.ofDigitChars_replicate_zero, Nat.ofDigitChars_replicate_zero, Nat.mul_zero,
    Nat.ofDigitChars_ten_toDigits, Nat.mul_comm]

/-- Digits are read as a whole number. -/
theorem readDecimal_whole {ds : List Char} (hne : ds ≠ []) (hds : ∀ c ∈ ds, c.isDigit = true) :
    readDecimal ds = some ⟨digitsValue 0 ds, 0⟩ := by
  have hsplit : splitDigits ds = (ds, []) :=
    Json.splitDigits_of_digits ⟨hne, hds, (List.append_nil ds).symm⟩ fun c hc => by cases hc
  unfold readDecimal
  simp [hsplit, hne, readExponent, digitsValue_append]

theorem readDecimal_point {ds fs : List Char} (hds : ds ≠ []) (hfs : fs ≠ [])
    (h : ∀ c ∈ ds ++ fs, c.isDigit = true) :
    readDecimal (ds ++ '.' :: fs) = some ⟨digitsValue 0 (ds ++ fs), -fs.length⟩ := by
  rw [List.forall_mem_append] at h
  have hwhole : splitDigits (ds ++ '.' :: fs) = (ds, '.' :: fs) :=
    Json.splitDigits_of_digits ⟨hds, h.1, rfl⟩ (Json.NoDigit.cons rfl)
  have hfraction : splitDigits fs = (fs, []) :=
    Json.splitDigits_of_digits ⟨hfs, h.2, (List.append_nil fs).symm⟩ fun c hc => by cases hc
  unfold readDecimal
  simp [hwhole, hfraction, hds, readExponent, digitsValue_append]

/-- A numeral begins with a digit or a point. -/
theorem head_of_readDecimal {s : List Char} {d : Decimal} (h : readDecimal s = some d) :
    ∃ c t, s = c :: t ∧ (c.isDigit = true ∨ c = '.') := by
  cases s with
  | nil => cases h
  | cons c t =>
    refine ⟨c, t, rfl, ?_⟩
    by_contra hc
    rw [not_or, Bool.not_eq_true] at hc
    have hsplit : splitDigits (c :: t) = ([], c :: t) := by simp [splitDigits, hc.1]
    unfold readDecimal at h
    simp [hsplit, hc.2] at h

end Numeral

/-! ## Decimals in full -/

namespace Decimal

theorem positional_eq (d : Decimal) : d.positional "" =
    if 0 ≤ d.exponent then
      String.ofList (Nat.toDigits 10 d.digits) ++
        String.ofList (List.replicate d.exponent.toNat '0') ++ ""
    else if (-d.exponent).toNat < (Nat.toDigits 10 d.digits).length then
      String.ofList ((Nat.toDigits 10 d.digits).take
        ((Nat.toDigits 10 d.digits).length - (-d.exponent).toNat)) ++ "." ++
      String.ofList ((Nat.toDigits 10 d.digits).drop
        ((Nat.toDigits 10 d.digits).length - (-d.exponent).toNat))
    else "0." ++ String.ofList (List.replicate
        ((-d.exponent).toNat - (Nat.toDigits 10 d.digits).length) '0') ++
      String.ofList (Nat.toDigits 10 d.digits) := rfl

theorem isDigit_of_mem {d : Decimal} {c : Char} (hc : c ∈ Nat.toDigits 10 d.digits) :
    c.isDigit = true := Nat.isDigit_of_mem_toDigits (by decide) (by decide) hc

theorem isDigit_of_mem_zeros {n : Nat} {c : Char} (hc : c ∈ List.replicate n '0') :
    c.isDigit = true := by
  rw [List.eq_of_mem_replicate hc]
  rfl

theorem readDecimal_of_nonneg {d : Decimal} (he : 0 ≤ d.exponent) :
    Numeral.readDecimal (d.positional "").toList =
      some ⟨d.digits * 10 ^ d.exponent.toNat, 0⟩ := by
  have hlist : (d.positional "").toList =
      Nat.toDigits 10 d.digits ++ List.replicate d.exponent.toNat '0' := by
    simp [positional_eq, he]
  rw [hlist, Numeral.readDecimal_whole]
  · rw [← Numeral.digitsValue_toDigits 0]
    rfl
  · simp [Nat.toDigits_ne_nil]
  · intro c hc
    exact (List.mem_append.1 hc).elim isDigit_of_mem isDigit_of_mem_zeros

/-- A point splits the digits, or stands behind a zero and before more zeros. -/
theorem toList_of_neg {d : Decimal} (he : d.exponent < 0) : ∃ ds fs,
    (d.positional "").toList = ds ++ '.' :: fs ∧ ds ≠ [] ∧ (fs.length : Int) = -d.exponent ∧
      ∃ n, ds ++ fs = List.replicate n '0' ++ Nat.toDigits 10 d.digits := by
  rw [positional_eq, if_neg (Int.not_le.2 he)]
  split
  · rename_i hplaces
    refine ⟨(Nat.toDigits 10 d.digits).take _, (Nat.toDigits 10 d.digits).drop _,
      by simp only [String.toList_append, String.toList_ofList, List.append_assoc]; rfl, ?_, ?_, 0,
      List.take_append_drop _ _⟩
    · rw [Ne, List.take_eq_nil_iff, not_or]
      exact ⟨by omega, Nat.toDigits_ne_nil⟩
    · rw [List.length_drop]
      omega
  · refine ⟨['0'], List.replicate _ '0' ++ Nat.toDigits 10 d.digits,
      by simp only [String.toList_append, String.toList_ofList]; rfl, by simp, ?_,
      (-d.exponent).toNat - (Nat.toDigits 10 d.digits).length + 1, rfl⟩
    rw [List.length_append, List.length_replicate]
    omega

theorem readDecimal_of_neg {d : Decimal} (he : d.exponent < 0) :
    Numeral.readDecimal (d.positional "").toList = some d := by
  obtain ⟨ds, fs, hlist, hds, hlength, n, hdigits⟩ := toList_of_neg he
  have hfs : fs ≠ [] := by
    rintro rfl
    simp at hlength
    omega
  have hvalue := Numeral.digitsValue_toDigits n 0 d.digits
  rw [List.replicate_zero, List.append_nil, ← hdigits, Nat.pow_zero, Nat.mul_one] at hvalue
  rw [hlist, Numeral.readDecimal_point hds hfs, hvalue, hlength, Int.neg_neg]
  rw [hdigits]
  intro c hc
  exact (List.mem_append.1 hc).elim isDigit_of_mem_zeros isDigit_of_mem

/-- **The decimal is read back from its text.** -/
theorem readDecimal_positional (d : Decimal) :
    ∃ d', Numeral.readDecimal (d.positional "").toList = some d' ∧ d'.value = d.value := by
  by_cases he : 0 ≤ d.exponent
  · refine ⟨_, readDecimal_of_nonneg he, ?_⟩
    rw [value, value]
    rw [Nat.cast_mul, Nat.cast_pow, Nat.cast_ofNat, zpow_zero, mul_one, ← zpow_natCast,
      Int.toNat_of_nonneg he]
  · exact ⟨d, readDecimal_of_neg (Int.not_le.1 he), rfl⟩

end Decimal

/-! ## Doubles by their magnitudes -/

namespace Magnitude

theorem valid_subnormal {fraction : Nat} (h : fraction < 2 ^ 52) :
    (⟨fraction, -1074, false⟩ : Binary).Valid where
  lt := h.trans (by norm_num)
  ge := Int.le_refl _
  full hlt := absurd hlt (Int.lt_irrefl _)
  narrow := by simp

theorem valid_normal {fraction field : Nat} (h : fraction < 2 ^ 52) (hfield : field ≠ 0) :
    (⟨2 ^ 52 + fraction, (field : Int) - 1075, fraction = 0 && 1 < field⟩ : Binary).Valid where
  lt := by
    change 2 ^ 52 + fraction < 2 ^ 53
    omega
  ge := by
    change -1074 ≤ (field : Int) - 1075
    omega
  full _ := Nat.le_add_right _ _
  narrow := by
    rw [Bool.and_eq_true, decide_eq_true_eq, decide_eq_true_eq]
    change _ ↔ 2 ^ 52 + fraction = 2 ^ 52 ∧ -1074 < (field : Int) - 1075
    omega

theorem valid_of_ofFloat {x : Float} {m : Binary} (h : (ofFloat x).2 = .finite m) : m.Valid := by
  have hfraction : x.toBits.toNat % 2 ^ 52 < 2 ^ 52 := Nat.mod_lt _ (by norm_num)
  simp only [ofFloat, Nat.pow_eq] at h
  split at h
  · split at h <;> cases h
  · split at h
    · cases h
      exact valid_subnormal hfraction
    · cases h
      exact valid_normal hfraction ‹_›

theorem toNat_unpackExponent (b : BitVec 64) :
    (@unpackExponent .binary64 b).toNat = b.toNat / 2 ^ 52 % 2 ^ 11 := by
  have h := BitVec.extractLsb_toNat 62 52 b
  rw [Nat.shiftRight_eq_div_pow] at h
  exact h

theorem toNat_unpackMantissa (b : BitVec 64) :
    (@unpackMantissa .binary64 b).toNat = b.toNat % 2 ^ 52 := by
  have h := BitVec.extractLsb_toNat 51 0 b
  rw [Nat.shiftRight_zero] at h
  exact h

/-- Only one double is not a number. -/
theorem toBits_of_nan {x : Float} (h : (ofFloat x).2 = .nan) :
    x.toBits = 0x7ff8000000000000 := by
  unfold ofFloat at h
  simp only [Nat.pow_eq] at h
  split at h
  · rename_i hfield
    split at h
    · cases h
    · rename_i hfraction
      have hbits := x.toModel.valid.eq_packedNaN ?_ ?_
      · exact UInt64.toBitVec_inj.1 hbits
      · apply BitVec.eq_of_toNat_eq
        rw [toNat_unpackExponent]
        exact hfield
      · intro hzero
        have hnat := congrArg BitVec.toNat hzero
        rw [toNat_unpackMantissa] at hnat
        exact hfraction hnat
  · split at h <;> cases h

/-- The bits of a sign and a magnitude. -/
def bits : Bool × Magnitude → Nat
  | (_, nan) => 0x7ff8000000000000
  | (negative, infinite) => (if negative then 2 ^ 63 else 0) + 2047 * 2 ^ 52
  | (negative, finite m) =>
    (if negative then 2 ^ 63 else 0) + (m.exponent + 1074).toNat * 2 ^ 52 + m.mantissa

/-- A double is determined by its sign and its magnitude. -/
theorem bits_ofFloat (x : Float) : bits (ofFloat x) = x.toBits.toNat := by
  have hlt := x.toBits.toNat_lt
  have hsign : (ofFloat x).1 = decide (x.toBits.toNat / 2 ^ 63 = 1) := rfl
  rcases h : ofFloat x with ⟨negative, m⟩
  obtain rfl : (ofFloat x).1 = negative := congrArg Prod.fst h
  replace h : (ofFloat x).2 = m := congrArg Prod.snd h
  rw [hsign]
  cases m with
  | nan =>
    rw [toBits_of_nan h]
    rfl
  | infinite =>
    simp only [ofFloat, Nat.pow_eq] at h
    split at h
    · split at h
      · simp only [bits, decide_eq_true_eq]
        split <;> omega
      · cases h
    · split at h <;> cases h
  | finite m =>
    simp only [ofFloat, Nat.pow_eq] at h
    split at h
    · split at h <;> cases h
    · split at h <;> (cases h; simp only [bits, decide_eq_true_eq]; split <;> omega)

theorem sign_of_nan {x : Float} (h : (ofFloat x).2 = .nan) : (ofFloat x).1 = false := by
  change decide (x.toBits.toNat / 2 ^ 63 = 1) = false
  rw [toBits_of_nan h]
  rfl

end Magnitude

/-! ## Displayed doubles -/

namespace NumberFormat

/-- A displayed magnitude is a numeral that rounds to it. -/
theorem readDecimal_magnitude {m : Binary} (hm : m.Valid) :
    ∃ d, Numeral.readDecimal (display.magnitude m).toList = some d ∧ m.Reads d.value := by
  unfold magnitude
  split
  · rename_i hzero
    have hvalue : (⟨0, 0⟩ : Decimal).value = 0 := by simp [Decimal.value]
    refine ⟨⟨0, 0⟩, rfl, ?_⟩
    rw [hvalue]
    refine ⟨?_, ?_, fun _ => by rw [hzero]⟩
    · simp [Binary.low, hzero]
    · rw [Binary.high]
      positivity
  · rename_i hpos
    obtain ⟨d, hd, hvalue⟩ := (m.shortest .up).readDecimal_positional
    refine ⟨d, hd, ?_⟩
    rw [hvalue]
    exact Binary.reads_shortest hm (Nat.pos_of_ne_zero hpos) .up

/-- The text of a magnitude. -/
def body : Magnitude → List Char
  | .nan => ['N', 'a', 'N']
  | .infinite => ['i', 'n', 'f']
  | .finite m => (display.magnitude m).toList

theorem toList_display (x : Float) : (display.render x).toList =
    (if (Magnitude.ofFloat x).1 then ['-'] else []) ++ body (Magnitude.ofFloat x).2 := by
  have hnan := @Magnitude.sign_of_nan x
  unfold render
  generalize Magnitude.ofFloat x = signed at hnan ⊢
  obtain ⟨negative, m⟩ := signed
  cases m with
  | nan =>
    obtain rfl : negative = false := hnan rfl
    rfl
  | infinite => cases negative <;> rfl
  | finite m =>
    cases negative with
    | false => rfl
    | true => exact String.toList_append

/-- What the text of a magnitude may begin with. -/
def begins (c : Char) : Bool := c.isDigit || c == '.' || c == 'N' || c == 'i'

theorem body_cons {x : Float} : ∃ c t, body (Magnitude.ofFloat x).2 = c :: t ∧ begins c = true := by
  cases hm : (Magnitude.ofFloat x).2 with
  | nan => exact ⟨_, _, rfl, rfl⟩
  | infinite => exact ⟨_, _, rfl, rfl⟩
  | finite m =>
    obtain ⟨d, hd, -⟩ := readDecimal_magnitude (Magnitude.valid_of_ofFloat hm)
    obtain ⟨c, t, hlist, hc⟩ := Numeral.head_of_readDecimal hd
    refine ⟨c, t, hlist, ?_⟩
    rcases hc with hc | rfl
    · simp [begins, hc]
    · rfl

/-- No other text is that of a finite magnitude. -/
theorem eq_finite_of_body {x y : Float} {m : Binary} (hx : (Magnitude.ofFloat x).2 = .finite m)
    (h : body (Magnitude.ofFloat y).2 = body (.finite m)) :
    (Magnitude.ofFloat y).2 = .finite m := by
  have hm := Magnitude.valid_of_ofFloat hx
  obtain ⟨d, hd, hreads⟩ := readDecimal_magnitude hm
  cases hy : (Magnitude.ofFloat y).2 with
  | nan =>
    rw [hy] at h
    cases (congrArg Numeral.readDecimal h).trans hd
  | infinite =>
    rw [hy] at h
    cases (congrArg Numeral.readDecimal h).trans hd
  | finite n =>
    have hn := Magnitude.valid_of_ofFloat hy
    obtain ⟨d', hd', hreads'⟩ := readDecimal_magnitude hn
    rw [hy] at h
    have hread : some d' = some d := hd'.symm.trans ((congrArg Numeral.readDecimal h).trans hd)
    obtain rfl : d' = d := Option.some.inj hread
    rw [hreads'.unique hn hm hreads]

theorem body_injective {x y : Float}
    (h : body (Magnitude.ofFloat x).2 = body (Magnitude.ofFloat y).2) :
    (Magnitude.ofFloat x).2 = (Magnitude.ofFloat y).2 := by
  cases hx : (Magnitude.ofFloat x).2 with
  | finite m => exact (eq_finite_of_body hx (h.symm.trans (congrArg body hx))).symm
  | nan =>
    cases hy : (Magnitude.ofFloat y).2 with
    | finite n => exact hx.symm.trans (eq_finite_of_body hy (h.trans (congrArg body hy)))
    | nan => rfl
    | infinite => simp [hx, hy, body] at h
  | infinite =>
    cases hy : (Magnitude.ofFloat y).2 with
    | finite n => exact hx.symm.trans (eq_finite_of_body hy (h.trans (congrArg body hy)))
    | nan => simp [hx, hy, body] at h
    | infinite => rfl

/-- A minus is told by the first character. -/
theorem signed_injective {a b : Bool} {c c' : Char} {t t' : List Char} (hc : begins c = true)
    (hc' : begins c' = true)
    (h : (if a then ['-'] else []) ++ c :: t = (if b then ['-'] else []) ++ c' :: t') :
    a = b ∧ c :: t = c' :: t' := by
  have hminus : ∀ {d : Char}, begins d = true → d ≠ '-' := by
    rintro d hd rfl
    cases hd
  cases a <;> cases b
  · exact ⟨rfl, h⟩
  · exact absurd (List.cons.inj h).1 (hminus hc)
  · exact absurd (List.cons.inj h).1.symm (hminus hc')
  · exact ⟨rfl, (List.cons.inj h).2⟩

/-- **Displayed doubles can be told apart.** -/
theorem display_injective {x y : Float} (h : display.render x = display.render y) : x = y := by
  obtain ⟨c, t, hx, hc⟩ := @body_cons x
  obtain ⟨c', t', hy, hc'⟩ := @body_cons y
  have hlist := congrArg String.toList h
  rw [toList_display, toList_display, hx, hy] at hlist
  obtain ⟨hsign, hbody⟩ := signed_injective hc hc' hlist
  rw [← hx, ← hy] at hbody
  have hbits := congrArg Magnitude.bits (Prod.ext hsign (body_injective hbody))
  rw [Magnitude.bits_ofFloat, Magnitude.bits_ofFloat] at hbits
  exact float_toBits_inj (UInt64.toNat_inj.1 hbits)

end NumberFormat

end TuneBlocks
