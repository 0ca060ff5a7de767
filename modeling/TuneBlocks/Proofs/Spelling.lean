import TuneBlocks.Json.Reader

/-!
# How JSON is spelled

The grammar of JSON, said without the reader: a relation holds between a phrase, a text that begins
with a spelling of it, and the rest of that text. Blanks, numerals and strings come first, each with
the part of the reader that follows it; `Spells` puts them together, and `Json.Text` relates a value
to the whole texts that stand for it.
-/

namespace TuneBlocks.Json

/-! ## Blanks -/

/-- What is left of a text after some of the blanks at its front. -/
def Blanks (s rest : List Char) : Prop := ∃ w, (∀ c ∈ w, isBlank c = true) ∧ s = w ++ rest

namespace Blanks

theorem refl (s : List Char) : Blanks s s := ⟨[], by simp, rfl⟩

theorem append {s rest : List Char} (h : Blanks s rest) (w : List Char) :
    Blanks (s ++ w) (rest ++ w) := by
  obtain ⟨v, hv, rfl⟩ := h
  exact ⟨v, hv, List.append_assoc ..⟩

theorem skipBlanks_eq {s rest : List Char} (h : Blanks s rest) :
    skipBlanks s = skipBlanks rest := by
  obtain ⟨w, hw, rfl⟩ := h
  unfold skipBlanks
  rw [List.dropWhile_append_of_pos hw]

theorem length_le {s rest : List Char} (h : Blanks s rest) : rest.length ≤ s.length := by
  obtain ⟨w, -, rfl⟩ := h
  simp

end Blanks

theorem blanks_skipBlanks (s : List Char) : Blanks s (skipBlanks s) := by
  refine ⟨s.takeWhile isBlank, fun c hc => ?_, (List.takeWhile_append_dropWhile).symm⟩
  exact List.all_eq_true.1 List.all_takeWhile c hc

theorem skipBlanks_cons {c : Char} (h : isBlank c = false) (s : List Char) :
    skipBlanks (c :: s) = c :: s := by
  simp [skipBlanks, h]

@[simp] theorem skipBlanks_skipBlanks (s : List Char) :
    skipBlanks (skipBlanks s) = skipBlanks s :=
  (blanks_skipBlanks s).skipBlanks_eq.symm

/-- The reader finds a mark behind the blanks that a spelling puts before it. -/
theorem Blanks.skipBlanks_cons {s rest : List Char} {c : Char} (h : Blanks s (c :: rest))
    (hc : isBlank c = false) : skipBlanks s = c :: rest :=
  h.skipBlanks_eq.trans (Json.skipBlanks_cons hc rest)

theorem blanks_of_skipBlanks {s t : List Char} (h : skipBlanks s = t) : Blanks s t :=
  h ▸ blanks_skipBlanks s

/-! ## Numerals -/

/-- Digits, at least one. -/
def Digits (ds s rest : List Char) : Prop :=
  ds ≠ [] ∧ (∀ c ∈ ds, c.isDigit = true) ∧ s = ds ++ rest

/-- A sign before an exponent: `true` for minus. -/
inductive Sign : Bool → List Char → List Char → Prop where
  | absent (s) : Sign false s s
  | plus (s) : Sign false ('+' :: s) s
  | minus (s) : Sign true ('-' :: s) s

inductive Minus : Bool → List Char → List Char → Prop where
  | absent (s) : Minus false s s
  | minus (s) : Minus true ('-' :: s) s

/-- The digits behind a point, or nothing. -/
inductive Fraction : List Char → List Char → List Char → Prop where
  | absent (s) : Fraction [] s s
  | present {ds s rest} : Digits ds s rest → Fraction ds ('.' :: s) rest

inductive Exponent : Option Int → List Char → List Char → Prop where
  | absent (s) : Exponent none s s
  | present {c negative ds s t rest} : c = 'e' ∨ c = 'E' → Sign negative s t → Digits ds t rest →
    Exponent (some (if negative then -(Numeral.digitsValue 0 ds : Int)
      else Numeral.digitsValue 0 ds)) (c :: s) rest

/-- A numeral; its first digit is a zero only if that is all that stands before the point. -/
inductive SpellsNumber : Json → List Char → List Char → Prop where
  | mk {negative digits fraction exponent j s t u v rest} :
    Minus negative s t → Digits digits t u → (∀ d ds, digits ≠ '0' :: d :: ds) →
    Fraction fraction u v → Exponent exponent v rest →
    number negative digits fraction exponent = some j → SpellsNumber j s rest

/-- Texts that do not go on with a numeral that ends before them. -/
def Ends (s : List Char) : Prop :=
  ∀ c ∈ s.head?, c.isDigit = false ∧ c ≠ '.' ∧ c ≠ 'e' ∧ c ≠ 'E'

theorem Ends.nil : Ends [] := by
  simp [Ends]

theorem Ends.cons {c : Char} {s : List Char}
    (h : c.isDigit = false ∧ c ≠ '.' ∧ c ≠ 'e' ∧ c ≠ 'E') : Ends (c :: s) := by
  intro d hd
  cases hd
  exact h

theorem Ends.of_blanks {s rest : List Char} (h : Blanks s rest) (hrest : Ends rest) : Ends s := by
  obtain ⟨w, hw, rfl⟩ := h
  cases w with
  | nil => exact hrest
  | cons c w =>
    have hc := hw c (by simp)
    simp only [isBlank, Bool.or_eq_true, decide_eq_true_eq] at hc
    apply Ends.cons
    rcases hc with ((rfl | rfl) | rfl) | rfl <;> decide

/-- Texts that do not begin with a digit. -/
def NoDigit (s : List Char) : Prop := ∀ c ∈ s.head?, c.isDigit = false

theorem Ends.noDigit {s : List Char} (h : Ends s) : NoDigit s := fun c hc => (h c hc).1

theorem NoDigit.cons {c : Char} {s : List Char} (h : c.isDigit = false) : NoDigit (c :: s) := by
  intro d hd
  cases hd
  exact h

theorem splitDigits_of_digits {ds s rest : List Char} (h : Digits ds s rest)
    (hrest : NoDigit rest) : Numeral.splitDigits s = (ds, rest) := by
  obtain ⟨-, hds, rfl⟩ := h
  have hstop : rest.takeWhile Char.isDigit = [] ∧ rest.dropWhile Char.isDigit = rest := by
    cases rest with
    | nil => exact ⟨rfl, rfl⟩
    | cons c rest => simp [hrest c rfl]
  unfold Numeral.splitDigits
  rw [List.takeWhile_append_of_pos hds, List.dropWhile_append_of_pos hds, hstop.1, hstop.2,
    List.append_nil]

theorem digits_of_splitDigits {ds s rest : List Char} (h : Numeral.splitDigits s = (ds, rest))
    (hne : ds ≠ []) : Digits ds s rest := by
  obtain ⟨rfl, rfl⟩ := Prod.mk.inj h
  refine ⟨hne, fun c hc => ?_, (List.takeWhile_append_dropWhile).symm⟩
  exact List.all_eq_true.1 List.all_takeWhile c hc

theorem splitSign_of_sign {negative : Bool} {s t : List Char} (h : Sign negative s t)
    (ht : ∀ c ∈ t.head?, c.isDigit = true) : Numeral.splitSign s = (negative, t) := by
  cases h with
  | plus => rfl
  | minus => rfl
  | absent =>
    -- a digit comes first, so neither sign does
    unfold Numeral.splitSign
    split
    · exact absurd (ht '-' rfl) (by decide)
    · exact absurd (ht '+' rfl) (by decide)
    · rfl

theorem sign_of_splitSign {negative : Bool} {s t : List Char}
    (h : Numeral.splitSign s = (negative, t)) : Sign negative s t := by
  unfold Numeral.splitSign at h
  split at h
  · obtain ⟨rfl, rfl⟩ := Prod.mk.inj h
    exact .minus _
  · obtain ⟨rfl, rfl⟩ := Prod.mk.inj h
    exact .plus _
  · obtain ⟨rfl, rfl⟩ := Prod.mk.inj h
    exact .absent _

theorem Digits.head {ds s rest : List Char} (h : Digits ds s rest) :
    ∀ c ∈ s.head?, c.isDigit = true := by
  obtain ⟨hne, hds, rfl⟩ := h
  cases ds with
  | nil => exact absurd rfl hne
  | cons d ds =>
    intro c hc
    cases hc
    exact hds d (by simp)

theorem readExponent_of_exponent {e : Option Int} {s rest : List Char} (h : Exponent e s rest)
    (hrest : Ends rest) : readExponent s = some (e, rest) := by
  cases h with
  | absent =>
    cases s with
    | nil => rfl
    | cons c s =>
      have hc := hrest c rfl
      simp [readExponent, hc.2.2.1, hc.2.2.2]
  | @present c negative ds s t _ hc hsign hdigits =>
    have hmark : (c = 'e' || c = 'E') = true := by simpa using hc
    simp only [readExponent, hmark, ↓reduceIte, splitSign_of_sign hsign hdigits.head,
      splitDigits_of_digits hdigits hrest.noDigit]
    cases ds with
    | nil => exact absurd rfl hdigits.1
    | cons d ds => rfl

theorem exponent_of_readExponent {e : Option Int} {s rest : List Char}
    (h : readExponent s = some (e, rest)) : Exponent e s rest := by
  cases s with
  | nil =>
    obtain ⟨rfl, rfl⟩ : e = none ∧ rest = [] := by simpa [readExponent, eq_comm] using h
    exact .absent _
  | cons c s =>
    by_cases hmark : (c = 'e' || c = 'E') = true
    · rcases hsign : Numeral.splitSign s with ⟨negative, t⟩
      rcases hdigits : Numeral.splitDigits t with ⟨ds, u⟩
      simp only [readExponent, hmark, ↓reduceIte, hsign, hdigits] at h
      cases ds with
      | nil => cases h
      | cons d ds =>
        cases h
        exact .present (by simpa using hmark) (sign_of_splitSign hsign)
          (digits_of_splitDigits hdigits (List.cons_ne_nil d ds))
    · simp only [readExponent, hmark, Bool.false_eq_true, ↓reduceIte] at h
      cases h
      exact .absent _

theorem readFraction_of_fraction {f s rest : List Char} (h : Fraction f s rest)
    (hdigit : NoDigit rest) (hpoint : '.' ∉ rest.head?) : readFraction s = some (f, rest) := by
  cases h with
  | absent =>
    unfold readFraction
    split
    · exact absurd rfl hpoint
    · rfl
  | @present _ s _ hdigits =>
    simp only [readFraction, splitDigits_of_digits hdigits hdigit]
    cases f with
    | nil => exact absurd rfl hdigits.1
    | cons d ds => rfl

theorem fraction_of_readFraction {f s rest : List Char} (h : readFraction s = some (f, rest)) :
    Fraction f s rest := by
  unfold readFraction at h
  split at h
  · next s =>
    rcases hdigits : Numeral.splitDigits s with ⟨ds, u⟩
    rw [hdigits] at h
    cases ds with
    | nil => cases h
    | cons d ds =>
      cases h
      exact .present (digits_of_splitDigits hdigits (List.cons_ne_nil d ds))
  · cases h
    exact .absent _

/-- An exponent begins with its mark, so that neither a digit nor a point is at the front of what
follows the fraction. -/
theorem Exponent.front {e : Option Int} {s rest : List Char} (h : Exponent e s rest)
    (hrest : Ends rest) : NoDigit s ∧ '.' ∉ s.head? := by
  cases h with
  | absent => exact ⟨hrest.noDigit, fun hp => (hrest '.' hp).2.1 rfl⟩
  | present hc =>
    rcases hc with rfl | rfl
    · exact ⟨.cons (by decide), by simp⟩
    · exact ⟨.cons (by decide), by simp⟩

theorem Fraction.front {f s rest : List Char} (h : Fraction f s rest) (hrest : NoDigit rest) :
    NoDigit s := by
  cases h with
  | absent => exact hrest
  | present => exact .cons (by decide)

/-- A number whose sign has been read. -/
def readUnsigned (negative : Bool) (s : List Char) : Option (Json × List Char) := do
  let (digits, s) := Numeral.splitDigits s
  match digits with
  | [] => none
  | '0' :: _ :: _ => none
  | _ =>
    let (fraction, s) ← readFraction s
    let (exponent, s) ← readExponent s
    let j ← number negative digits fraction exponent
    return (j, s)

theorem readNumber_minus (s : List Char) : readNumber ('-' :: s) = readUnsigned true s := rfl

theorem readNumber_of_not_minus {s : List Char} (h : '-' ∉ s.head?) :
    readNumber s = readUnsigned false s := by
  unfold readNumber
  split
  · next heq =>
    split at heq
    · exact absurd rfl h
    · cases heq
      rfl

theorem SpellsNumber.read {j : Json} {s rest : List Char} (h : SpellsNumber j s rest)
    (hrest : Ends rest) : readNumber s = some (j, rest) := by
  obtain ⟨hminus, hdigits, hzero, hfraction, hexponent, hnumber⟩ := h
  rename_i negative digits fraction exponent t u v
  have ⟨hdigit, hpoint⟩ := hexponent.front hrest
  have hsplit := splitDigits_of_digits hdigits (hfraction.front hdigit)
  have hunsigned : readUnsigned negative t = some (j, rest) := by
    unfold readUnsigned
    simp only [hsplit]
    split
    · exact absurd rfl hdigits.1
    · exact absurd rfl (hzero _ _)
    · simp only [readFraction_of_fraction hfraction hdigit hpoint,
        readExponent_of_exponent hexponent hrest, hnumber, Option.bind_eq_bind, Option.bind_some,
        Option.pure_def]
  cases hminus with
  | minus => exact (readNumber_minus t).trans hunsigned
  | absent =>
    rw [readNumber_of_not_minus, hunsigned]
    intro hhead
    exact absurd (hdigits.head '-' hhead) (by decide)

theorem spellsNumber_of_readUnsigned {negative : Bool} {j : Json} {s t rest : List Char}
    (hminus : Minus negative s t) (h : readUnsigned negative t = some (j, rest)) :
    SpellsNumber j s rest := by
  unfold readUnsigned at h
  rcases hdigits : Numeral.splitDigits t with ⟨ds, u⟩
  simp only [hdigits] at h
  split at h
  · cases h
  · cases h
  · next hne hzero =>
    simp only [Option.bind_eq_bind, Option.bind_eq_some_iff, Option.pure_def, Option.some.injEq,
      Prod.mk.injEq] at h
    obtain ⟨⟨f, v⟩, hfraction, ⟨e, w⟩, hexponent, j', hnumber, rfl, rfl⟩ := h
    refine .mk hminus (digits_of_splitDigits hdigits hne) (fun d ds hds => hzero d ds hds)
      (fraction_of_readFraction hfraction) (exponent_of_readExponent hexponent) hnumber

theorem spellsNumber_of_readNumber {j : Json} {s rest : List Char}
    (h : readNumber s = some (j, rest)) : SpellsNumber j s rest := by
  by_cases hhead : '-' ∈ s.head?
  · cases s with
    | nil => cases hhead
    | cons c s =>
      cases hhead
      rw [readNumber_minus] at h
      exact spellsNumber_of_readUnsigned (.minus s) h
  · rw [readNumber_of_not_minus hhead] at h
    exact spellsNumber_of_readUnsigned (.absent s) h

/-- A numeral begins with a minus or a digit. -/
theorem SpellsNumber.head {j : Json} {s rest : List Char} (h : SpellsNumber j s rest) :
    ∃ c t, s = c :: t ∧ (c = '-' ∨ c.isDigit = true) := by
  obtain ⟨hminus, hdigits, -⟩ := h
  cases hminus with
  | minus => exact ⟨'-', _, rfl, .inl rfl⟩
  | absent =>
    have hhead := hdigits.head
    obtain ⟨hne, -, rfl⟩ := hdigits
    obtain ⟨d, ds, rfl⟩ := List.exists_cons_of_ne_nil hne
    exact ⟨d, _, rfl, .inr (hhead d rfl)⟩

theorem Sign.length_le {negative : Bool} {s rest : List Char} (h : Sign negative s rest) :
    rest.length ≤ s.length := by
  cases h <;> simp

theorem Minus.length_le {negative : Bool} {s rest : List Char} (h : Minus negative s rest) :
    rest.length ≤ s.length := by
  cases h <;> simp

theorem Digits.length_lt {ds s rest : List Char} (h : Digits ds s rest) :
    rest.length < s.length := by
  obtain ⟨hne, -, rfl⟩ := h
  have := List.length_pos_iff.2 hne
  rw [List.length_append]
  omega

theorem Fraction.length_le {f s rest : List Char} (h : Fraction f s rest) :
    rest.length ≤ s.length := by
  cases h with
  | absent => exact Nat.le_refl _
  | present hdigits =>
    have := hdigits.length_lt
    rw [List.length_cons]
    omega

theorem Exponent.length_le {e : Option Int} {s rest : List Char} (h : Exponent e s rest) :
    rest.length ≤ s.length := by
  cases h with
  | absent => exact Nat.le_refl _
  | present _ hsign hdigits =>
    have := hsign.length_le
    have := hdigits.length_lt
    rw [List.length_cons]
    omega

theorem SpellsNumber.length_lt {j : Json} {s rest : List Char} (h : SpellsNumber j s rest) :
    rest.length < s.length := by
  obtain ⟨hminus, hdigits, -, hfraction, hexponent, -⟩ := h
  have := hminus.length_le
  have := hdigits.length_lt
  have := hfraction.length_le
  have := hexponent.length_le
  omega

/-! ## Strings -/

/-- The short escapes: a character behind a backslash, and the character it stands for. -/
def shortEscapes : List (Char × Char) :=
  [('"', '"'), ('\\', '\\'), ('/', '/'), ('b', '\x08'), ('f', '\x0c'), ('n', '\n'), ('r', '\r'),
    ('t', '\t')]

/-- A code unit as four hexadecimal digits. -/
inductive Unit16 : Nat → List Char → List Char → Prop where
  | mk {a b c d i j k l} (s) : hexValue a = some i → hexValue b = some j → hexValue c = some k →
    hexValue d = some l → Unit16 (((i * 16 + j) * 16 + k) * 16 + l) (a :: b :: c :: d :: s) s

/-- A character of a string: as it is, or escaped by a letter, by its code unit or by its two. -/
inductive SpellsChar : Char → List Char → List Char → Prop where
  | plain {c} (s) : ¬ c < ' ' → c ≠ '"' → c ≠ '\\' → SpellsChar c (c :: s) s
  | short {e c} (s) : (e, c) ∈ shortEscapes → SpellsChar c ('\\' :: e :: s) s
  | unit {n s rest} : Unit16 n s rest → n < 0xd800 ∨ 0xe000 ≤ n →
    SpellsChar (Char.ofNat n) ('\\' :: 'u' :: s) rest
  | units {high low s t rest} : Unit16 high s ('\\' :: 'u' :: t) → 0xd800 ≤ high → high < 0xdc00 →
    Unit16 low t rest → 0xdc00 ≤ low → low < 0xe000 →
    SpellsChar (Char.ofNat (0x10000 + (high - 0xd800) * 0x400 + (low - 0xdc00)))
      ('\\' :: 'u' :: s) rest

/-- The characters of a string up to and with its closing quote. -/
inductive SpellsChars : List Char → List Char → List Char → Prop where
  | close (s) : SpellsChars [] ('"' :: s) s
  | cons {c cs s t rest} : SpellsChar c s t → SpellsChars cs t rest → SpellsChars (c :: cs) s rest

theorem readHex_eq_some_iff {n : Nat} {s rest : List Char} :
    readHex s = some (n, rest) ↔ Unit16 n s rest := by
  constructor
  · intro h
    unfold readHex at h
    split at h
    · simp only [Option.bind_eq_bind, Option.bind_eq_some_iff, Option.pure_def, Option.some.injEq,
        Prod.mk.injEq] at h
      obtain ⟨i, hi, j, hj, k, hk, l, hl, rfl, rfl⟩ := h
      exact .mk _ hi hj hk hl
    · cases h
  · rintro ⟨_, hi, hj, hk, hl⟩
    simp [readHex, hi, hj, hk, hl]

theorem readUnits_of_unit {n : Nat} {s rest : List Char} (h : Unit16 n s rest)
    (hn : n < 0xd800 ∨ 0xe000 ≤ n) : readUnits s = some (Char.ofNat n, rest) := by
  have hhigh : (0xd800 ≤ n && n < 0xdc00) = false := by
    rw [Bool.and_eq_false_iff, decide_eq_false_iff_not, decide_eq_false_iff_not]
    omega
  have hlow : (0xdc00 ≤ n && n < 0xe000) = false := by
    rw [Bool.and_eq_false_iff, decide_eq_false_iff_not, decide_eq_false_iff_not]
    omega
  unfold readUnits
  simp only [readHex_eq_some_iff.2 h, Option.bind_eq_bind, Option.bind_some, hhigh, hlow,
    Bool.false_eq_true, ↓reduceIte, Option.pure_def]

theorem readUnits_of_units {high low : Nat} {s t rest : List Char}
    (hs : Unit16 high s ('\\' :: 'u' :: t)) (hhigh : 0xd800 ≤ high ∧ high < 0xdc00)
    (ht : Unit16 low t rest) (hlow : 0xdc00 ≤ low ∧ low < 0xe000) :
    readUnits s =
      some (Char.ofNat (0x10000 + (high - 0xd800) * 0x400 + (low - 0xdc00)), rest) := by
  unfold readUnits
  simp only [readHex_eq_some_iff.2 hs, readHex_eq_some_iff.2 ht, Option.bind_eq_bind,
    Option.bind_some, hhigh, hlow, decide_true, Bool.and_true, ↓reduceIte, Option.pure_def]

theorem spellsChar_of_readUnits {c : Char} {s rest : List Char}
    (h : readUnits s = some (c, rest)) : SpellsChar c ('\\' :: 'u' :: s) rest := by
  unfold readUnits at h
  simp only [Option.bind_eq_bind, Option.bind_eq_some_iff] at h
  obtain ⟨⟨high, t⟩, hhex, h⟩ := h
  rw [readHex_eq_some_iff] at hhex
  split at h
  · next hhigh =>
    simp only [Bool.and_eq_true, decide_eq_true_eq] at hhigh
    dsimp only at h
    split at h
    · simp only [Option.bind_eq_some_iff] at h
      obtain ⟨⟨low, u⟩, hhex', h⟩ := h
      rw [readHex_eq_some_iff] at hhex'
      split at h
      · next hlow =>
        simp only [Bool.and_eq_true, decide_eq_true_eq] at hlow
        simp only [Option.pure_def, Option.some.injEq, Prod.mk.injEq] at h
        obtain ⟨rfl, rfl⟩ := h
        exact .units hhex hhigh.1 hhigh.2 hhex' hlow.1 hlow.2
      · cases h
    · cases h
  · next hhigh =>
    split at h
    · cases h
    · next hlow =>
      simp only [Bool.and_eq_true, decide_eq_true_eq] at hhigh hlow
      cases h
      exact .unit hhex (by omega)

theorem SpellsChar.read {c : Char} {s rest : List Char} (h : SpellsChar c s rest) :
    readChar s = some (c, rest) := by
  cases h with
  | plain _ hc _ hslash =>
    unfold readChar
    split
    · next heq =>
      cases heq
      exact absurd rfl hslash
    · next heq =>
      cases heq
      exact absurd rfl hslash
    · next heq =>
      cases heq
      simp [hc, hslash]
    · next heq => cases heq
  | short _ he =>
    simp only [shortEscapes, List.mem_cons, List.not_mem_nil, or_false, Prod.mk.injEq] at he
    rcases he with ⟨rfl, rfl⟩ | ⟨rfl, rfl⟩ | ⟨rfl, rfl⟩ | ⟨rfl, rfl⟩ | ⟨rfl, rfl⟩ | ⟨rfl, rfl⟩ |
      ⟨rfl, rfl⟩ | ⟨rfl, rfl⟩ <;> rfl
  | unit hunit hn => exact readUnits_of_unit hunit hn
  | units hs h₁ h₂ ht h₃ h₄ => exact readUnits_of_units hs ⟨h₁, h₂⟩ ht ⟨h₃, h₄⟩

theorem spellsChar_of_readChar {c : Char} {s rest : List Char} (hquote : '"' ∉ s.head?)
    (h : readChar s = some (c, rest)) : SpellsChar c s rest := by
  unfold readChar at h
  split at h
  · exact spellsChar_of_readUnits h
  · next e s _ =>
    split at h
    · next he =>
      simp only [Bool.or_eq_true, decide_eq_true_eq] at he
      cases h
      rcases he with (rfl | rfl) | rfl <;> exact .short _ (by decide)
    · repeat' split at h
      all_goals cases h
      all_goals next he => subst he; exact .short _ (by decide)
  · next d s _ _ =>
    split at h
    · cases h
    · next hd =>
      simp only [Bool.or_eq_true, decide_eq_true_eq, not_or] at hd
      cases h
      exact .plain _ hd.1 (fun e => hquote (e ▸ rfl)) hd.2
  · cases h

theorem SpellsChar.head {c : Char} {s rest : List Char} (h : SpellsChar c s rest) :
    '"' ∉ s.head? ∧ rest.length < s.length := by
  cases h with
  | plain _ _ hquote => simpa using hquote
  | short =>
    simp only [List.head?_cons, List.length_cons]
    exact ⟨by simp, by omega⟩
  | unit h =>
    cases h
    simp only [List.head?_cons, List.length_cons]
    exact ⟨by simp, by omega⟩
  | units h _ _ h' =>
    cases h
    cases h'
    simp only [List.head?_cons, List.length_cons]
    exact ⟨by simp, by omega⟩

theorem readChars_quote (bound : Nat) (s : List Char) :
    readChars bound ('"' :: s) = some ([], s) := by
  cases bound <;> rfl

theorem readChars_zero {s : List Char} (h : '"' ∉ s.head?) : readChars 0 s = none := by
  unfold readChars
  split
  · exact absurd rfl h
  · rfl
  · contradiction

theorem readChars_succ {s : List Char} (h : '"' ∉ s.head?) (bound : Nat) :
    readChars (bound + 1) s = (readChar s).bind fun p =>
      (readChars bound p.2).bind fun q => some (p.1 :: q.1, q.2) := by
  conv => lhs; unfold readChars
  split
  · exact absurd rfl h
  · contradiction
  · next heq _ =>
    cases heq
    rfl

/-- A string is read if its characters are within the bound. -/
theorem SpellsChars.read {cs s rest : List Char} (h : SpellsChars cs s rest) :
    ∀ bound, cs.length ≤ bound → readChars bound s = some (cs, rest) := by
  induction h with
  | close => exact fun bound _ => readChars_quote bound _
  | cons hc _ ih =>
    intro bound hbound
    cases bound with
    | zero => simp at hbound
    | succ bound =>
      simp only [readChars_succ hc.head.1, hc.read, Option.bind_some,
        ih bound (by simpa using hbound)]

theorem spellsChars_of_readChars {bound : Nat} {cs s rest : List Char}
    (h : readChars bound s = some (cs, rest)) : SpellsChars cs s rest := by
  induction bound generalizing cs s with
  | zero =>
    by_cases hquote : '"' ∈ s.head?
    · obtain ⟨s, rfl⟩ : ∃ t, s = '"' :: t := List.head?_eq_some_iff.1 hquote
      cases h
      exact .close _
    · rw [readChars_zero hquote] at h
      cases h
  | succ bound ih =>
    by_cases hquote : '"' ∈ s.head?
    · obtain ⟨s, rfl⟩ : ∃ t, s = '"' :: t := List.head?_eq_some_iff.1 hquote
      cases h
      exact .close _
    · rw [readChars_succ hquote] at h
      simp only [Option.bind_eq_some_iff, Option.some.injEq, Prod.mk.injEq] at h
      obtain ⟨⟨c, t⟩, hc, ⟨cs, u⟩, hcs, rfl, rfl⟩ := h
      exact .cons (spellsChar_of_readChar hquote hc) (ih hcs)

theorem SpellsChars.length_lt {cs s rest : List Char} (h : SpellsChars cs s rest) :
    cs.length + rest.length < s.length := by
  induction h with
  | close => simp
  | cons hc _ ih =>
    have := hc.head.2
    simp only [List.length_cons]
    omega

theorem SpellsChars.readText {cs s rest : List Char} (h : SpellsChars cs s rest) {bound : Nat}
    (hbound : s.length ≤ bound) : readText bound s = some (String.ofList cs, rest) := by
  have := h.length_lt
  simp [Json.readText, h.read bound (by omega)]

theorem spellsChars_of_readText {bound : Nat} {k : String} {s rest : List Char}
    (h : readText bound s = some (k, rest)) :
    ∃ cs, k = String.ofList cs ∧ SpellsChars cs s rest := by
  unfold readText at h
  rw [Option.map_eq_some_iff] at h
  obtain ⟨⟨cs, u⟩, hcs, heq⟩ := h
  cases heq
  exact ⟨cs, rfl, spellsChars_of_readChars hcs⟩

/-! ## Values -/

/-- What a piece of JSON can be: a value, or what stands in an array or an object behind the opening
bracket. -/
inductive Phrase where
  | value (j : Json)
  | items (js : List Json)
  | fields (fs : List (String × Json))

/-- The front of a text spells a phrase, blanks before it included. Items and fields, of which there
is at least one, come with their closing bracket. -/
inductive Spells : Phrase → List Char → List Char → Prop where
  | blank {p c s rest} : isBlank c = true → Spells p s rest → Spells p (c :: s) rest
  | null (s) : Spells (.value .null) ('n' :: 'u' :: 'l' :: 'l' :: s) s
  | yes (s) : Spells (.value (.bool true)) ('t' :: 'r' :: 'u' :: 'e' :: s) s
  | no (s) : Spells (.value (.bool false)) ('f' :: 'a' :: 'l' :: 's' :: 'e' :: s) s
  | number {j s rest} : SpellsNumber j s rest → Spells (.value j) s rest
  | text {cs s rest} : SpellsChars cs s rest →
    Spells (.value (.text (String.ofList cs))) ('"' :: s) rest
  | emptyArray {s rest} : Blanks s (']' :: rest) → Spells (.value (.array [])) ('[' :: s) rest
  | array {js s rest} : Spells (.items js) s rest → Spells (.value (.array js)) ('[' :: s) rest
  | emptyObject {s rest} : Blanks s ('\x7d' :: rest) →
    Spells (.value (.object [])) ('\x7b' :: s) rest
  | object {fs s rest} : Spells (.fields fs) s rest →
    Spells (.value (.object fs)) ('\x7b' :: s) rest
  | lastItem {j s t rest} : Spells (.value j) s t → Blanks t (']' :: rest) →
    Spells (.items [j]) s rest
  | item {j js s t u rest} : Spells (.value j) s t → Blanks t (',' :: u) →
    Spells (.items js) u rest → Spells (.items (j :: js)) s rest
  | lastField {cs j s t u v rest} : SpellsChars cs s t → Blanks t (':' :: u) →
    Spells (.value j) u v → Blanks v ('\x7d' :: rest) →
    Spells (.fields [(String.ofList cs, j)]) ('"' :: s) rest
  | field {cs j fs s t u v w rest} : SpellsChars cs s t → Blanks t (':' :: u) →
    Spells (.value j) u v → Blanks v (',' :: w) → Spells (.fields fs) w rest →
    Spells (.fields ((String.ofList cs, j) :: fs)) ('"' :: s) rest

/-- A text that stands for a value, with nothing but blanks around it. -/
def Text (j : Json) (s : List Char) : Prop := ∃ rest, Spells (.value j) s rest ∧ Blanks rest []

theorem Spells.of_blanks {p : Phrase} {s t rest : List Char} (hs : Blanks s t)
    (h : Spells p t rest) : Spells p s rest := by
  obtain ⟨w, hw, rfl⟩ := hs
  induction w with
  | nil => exact h
  | cons c w ih =>
    apply Spells.blank (hw c (by simp))
    apply ih
    exact fun d hd => hw d (by simp [hd])

/-! ### More text behind a phrase

A spelling is one whatever follows it. -/

section Append

variable {s rest : List Char} (w : List Char)

theorem Digits.append {ds : List Char} (h : Digits ds s rest) :
    Digits ds (s ++ w) (rest ++ w) := by
  obtain ⟨hne, hds, rfl⟩ := h
  exact ⟨hne, hds, List.append_assoc ..⟩

theorem Sign.append {negative : Bool} (h : Sign negative s rest) :
    Sign negative (s ++ w) (rest ++ w) := by
  cases h with
  | absent => exact .absent _
  | plus => exact .plus _
  | minus => exact .minus _

theorem Minus.append {negative : Bool} (h : Minus negative s rest) :
    Minus negative (s ++ w) (rest ++ w) := by
  cases h with
  | absent => exact .absent _
  | minus => exact .minus _

theorem Fraction.append {f : List Char} (h : Fraction f s rest) :
    Fraction f (s ++ w) (rest ++ w) := by
  cases h with
  | absent => exact .absent _
  | present hdigits => exact .present (hdigits.append w)

theorem Exponent.append {e : Option Int} (h : Exponent e s rest) :
    Exponent e (s ++ w) (rest ++ w) := by
  cases h with
  | absent => exact .absent _
  | present hc hsign hdigits => exact .present hc (hsign.append w) (hdigits.append w)

theorem SpellsNumber.append {j : Json} (h : SpellsNumber j s rest) :
    SpellsNumber j (s ++ w) (rest ++ w) := by
  obtain ⟨hminus, hdigits, hzero, hfraction, hexponent, hnumber⟩ := h
  exact .mk (hminus.append w) (hdigits.append w) hzero (hfraction.append w) (hexponent.append w)
    hnumber

theorem Unit16.append {n : Nat} (h : Unit16 n s rest) : Unit16 n (s ++ w) (rest ++ w) := by
  obtain ⟨_, ha, hb, hc, hd⟩ := h
  exact .mk _ ha hb hc hd

theorem SpellsChar.append {c : Char} (h : SpellsChar c s rest) :
    SpellsChar c (s ++ w) (rest ++ w) := by
  cases h with
  | plain _ hc hquote hslash => exact .plain _ hc hquote hslash
  | short _ he => exact .short _ he
  | unit hunit hn => exact .unit (hunit.append w) hn
  | units hs h₁ h₂ ht h₃ h₄ => exact .units (hs.append w) h₁ h₂ (ht.append w) h₃ h₄

theorem SpellsChars.append {cs : List Char} (h : SpellsChars cs s rest) :
    SpellsChars cs (s ++ w) (rest ++ w) := by
  induction h with
  | close => exact .close _
  | cons hc _ ih => exact .cons (hc.append w) ih

theorem Spells.append {p : Phrase} (h : Spells p s rest) : Spells p (s ++ w) (rest ++ w) := by
  induction h with
  | blank hc _ ih => exact .blank hc ih
  | null => exact .null _
  | yes => exact .yes _
  | no => exact .no _
  | number hj => exact .number (hj.append w)
  | text hcs => exact .text (hcs.append w)
  | emptyArray hs => exact .emptyArray (hs.append w)
  | array _ ih => exact .array ih
  | emptyObject hs => exact .emptyObject (hs.append w)
  | object _ ih => exact .object ih
  | lastItem _ hend ih => exact .lastItem ih (hend.append w)
  | item _ hcomma _ ih ih' => exact .item ih (hcomma.append w) ih'
  | lastField hcs hcolon _ hend ih =>
    exact .lastField (hcs.append w) (hcolon.append w) ih (hend.append w)
  | field hcs hcolon _ hcomma _ ih ih' =>
    exact .field (hcs.append w) (hcolon.append w) ih (hcomma.append w) ih'

/-- A text for a value may stand inside a longer one. -/
theorem Text.append {j : Json} (h : Text j s) :
    ∃ t, Spells (.value j) (s ++ w) t ∧ Blanks t w := by
  obtain ⟨t, hj, ht⟩ := h
  exact ⟨t ++ w, hj.append w, ht.append w⟩

end Append

end TuneBlocks.Json
