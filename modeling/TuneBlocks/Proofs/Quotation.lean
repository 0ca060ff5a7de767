import TuneBlocks.Text.Quoted

/-!
# Quoted texts can be read back

Inside quotes a character stands for itself, or behind a backslash as a mark or as its code point
between braces. A plain character is never a backslash, the marks differ, none is the `u` of a code
point, and no brace is a digit; so the first character of a quoted text and where it ends can be
told from the text alone (`unescape_escape`), and different texts have different quotations
(`quote_injective`). What stands inside quotes can be seen (`isVisible_of_mem_quote`), whatever the
text is made of.
-/

namespace TuneBlocks.Text

/-! ## Code points -/

/-- The value of a hexadecimal digit in lower case. -/
def hexDigit (c : Char) : Nat :=
  if c.isDigit then c.toNat - '0'.toNat else c.toNat - 'a'.toNat + 10

/-- The number with some hexadecimal digits. -/
def hexNumber (ds : List Char) : Nat := ds.foldl (fun n c => 16 * n + hexDigit c) 0

theorem hexDigit_digitChar {n : Nat} (h : n < 16) : hexDigit n.digitChar = n := by
  have hall : ∀ n : Fin 16, hexDigit (Nat.digitChar n) = n := by decide
  exact hall ⟨n, h⟩

theorem hexNumber_toDigits (n : Nat) : hexNumber (Nat.toDigits 16 n) = n := by
  induction n using Nat.strongRecOn with
  | ind n ih =>
    rw [Nat.toDigits_eq_if (by decide)]
    split
    · rename_i h
      simp [hexNumber, hexDigit_digitChar h]
    · have hdigit := hexDigit_digitChar (Nat.mod_lt n (by decide : 0 < 16))
      have hrest := ih (n / 16) (by omega)
      rw [hexNumber] at hrest
      simp only [hexNumber, List.foldl_append, List.foldl_cons, List.foldl_nil, hrest, hdigit]
      omega

theorem mem_toDigits {b n : Nat} {c : Char} (hb : 1 < b) (h : c ∈ Nat.toDigits b n) :
    ∃ k < b, c = k.digitChar := by
  induction n using Nat.strongRecOn with
  | ind n ih =>
    rw [Nat.toDigits_eq_if hb] at h
    split at h
    · exact ⟨n, by assumption, List.mem_singleton.1 h⟩
    · rcases List.mem_append.1 h with h | h
      · exact ih (n / b) (Nat.div_lt_self (by omega) hb) h
      · exact ⟨n % b, Nat.mod_lt n (by omega), List.mem_singleton.1 h⟩

/-! ## Characters inside quotes -/

/-- The characters that a quotation may show. -/
def isVisible (c : Char) : Bool := (' ' ≤ c && c ≤ '~') || !isUnprintable c

/-- What a mark behind a backslash stands for. -/
def unmark : Char → Char
  | 't' => '\t'
  | 'r' => '\r'
  | 'n' => '\n'
  | '0' => '\x00'
  | c => c

/-- How a character may stand inside quotes. -/
inductive Stands (c : Char) : List Char → Prop where
  | plain : c ≠ '\\' → isVisible c = true → Stands c [c]
  | marked (mark : Char) : mark ≠ 'u' → isVisible mark = true → unmark mark = c →
      Stands c ['\\', mark]
  | codePoint : Stands c (codePoint c)

theorem stands_escape (c : Char) : Stands c (escape c) := by
  unfold escape
  repeat' split
  iterate 6
    · next h =>
      subst h
      exact .marked _ (by decide) rfl rfl
  · next hplain => exact .plain ‹_› (by rw [isVisible, hplain, Bool.true_or])
  · exact .codePoint
  · next hprintable =>
    refine .plain ‹_› ?_
    rw [isVisible, Bool.eq_false_iff.2 hprintable, Bool.not_false, Bool.or_true]

/-! ## Reading back -/

/-- The first character of the inside of a quotation, and what follows. -/
def unescape : List Char → Option (Char × List Char)
  | [] => none
  | c :: rest =>
    if c = '\\' then
      match rest with
      | [] => none
      | mark :: rest =>
        if mark = 'u' then
          let digits := (rest.drop 1).takeWhile (· != '\x7d')
          some (Char.ofNat (hexNumber digits), rest.drop (digits.length + 2))
        else some (unmark mark, rest)
    else some (c, rest)

theorem unescape_codePoint (c : Char) (rest : List Char) :
    unescape (codePoint c ++ rest) = some (c, rest) := by
  have hbrace : ∀ d ∈ Nat.toDigits 16 c.toNat, (d != '\x7d') = true := by
    intro d hd
    obtain ⟨k, hk, rfl⟩ := mem_toDigits (by decide) hd
    have hall : ∀ k : Fin 16, (Nat.digitChar k != '\x7d') = true := by decide
    exact hall ⟨k, hk⟩
  have hdigits : (Nat.toDigits 16 c.toNat ++ '\x7d' :: rest).takeWhile (· != '\x7d') =
      Nat.toDigits 16 c.toNat := by
    rw [List.takeWhile_append_of_pos hbrace]
    simp
  simp [codePoint, unescape, hdigits, hexNumber_toDigits, Char.ofNat_toNat]

theorem Stands.unescape {c : Char} {s : List Char} (h : Stands c s) (rest : List Char) :
    unescape (s ++ rest) = some (c, rest) := by
  cases h with
  | plain hc _ => exact if_neg hc
  | marked mark hmark _ hunmark =>
    rw [← hunmark]
    simp [Text.unescape, hmark]
  | codePoint => exact unescape_codePoint c rest

/-- **The code of a character can be read off the front of any text.** -/
theorem unescape_escape (c : Char) (rest : List Char) :
    unescape (escape c ++ rest) = some (c, rest) := (stands_escape c).unescape rest

theorem flatMap_escape_injective {s t : List Char} (h : s.flatMap escape = t.flatMap escape) :
    s = t := by
  have hne : ∀ (c : Char) (u : List Char), (c :: u).flatMap escape ≠ [] := by
    intro c u hnil
    have := unescape_escape c (u.flatMap escape)
    rw [← List.flatMap_cons, hnil] at this
    cases this
  induction s generalizing t with
  | nil =>
    cases t with
    | nil => rfl
    | cons d t => exact absurd h.symm (hne d t)
  | cons c s ih =>
    cases t with
    | nil => exact absurd h (hne c s)
    | cons d t =>
      rw [List.flatMap_cons, List.flatMap_cons] at h
      have hread := congrArg unescape h
      rw [unescape_escape, unescape_escape, Option.some.injEq, Prod.mk.injEq] at hread
      rw [hread.1, ih hread.2]

theorem toList_quote (s : String) : (quote s).toList = '"' :: (s.toList.flatMap escape ++ ['"']) :=
  String.toList_ofList

/-- **Different texts have different quotations.** -/
theorem quote_injective {s t : String} (h : quote s = quote t) : s = t := by
  have hlist := congrArg String.toList h
  rw [toList_quote, toList_quote, List.cons_inj_right, List.append_left_inj] at hlist
  exact String.toList_injective (flatMap_escape_injective hlist)

/-! ## What a quotation shows -/

theorem isVisible_codePoint {c d : Char} (h : d ∈ codePoint c) : isVisible d = true := by
  simp only [codePoint, List.mem_cons, List.mem_append, List.not_mem_nil, or_false] at h
  rcases h with rfl | rfl | rfl | h | rfl
  iterate 3 · rfl
  · obtain ⟨k, hk, rfl⟩ := mem_toDigits (by decide) h
    have hall : ∀ k : Fin 16, isVisible (Nat.digitChar k) = true := by decide +kernel
    exact hall ⟨k, hk⟩
  · rfl

theorem Stands.isVisible {c d : Char} {s : List Char} (h : Stands c s) (hd : d ∈ s) :
    isVisible d = true := by
  cases h with
  | plain _ hc => rwa [List.mem_singleton.1 hd]
  | marked mark _ hmark _ =>
    rcases List.mem_cons.1 hd with rfl | hd
    · rfl
    · rwa [List.mem_singleton.1 hd]
  | codePoint => exact isVisible_codePoint hd

/-- **A quotation shows all that it is made of.** -/
theorem isVisible_of_mem_quote {s : String} {c : Char} (h : c ∈ (quote s).toList) :
    isVisible c = true := by
  simp only [toList_quote, List.mem_cons, List.mem_append, List.mem_flatMap, List.not_mem_nil,
    or_false] at h
  rcases h with rfl | ⟨d, -, h⟩ | rfl
  · rfl
  · exact (stands_escape d).isVisible h
  · rfl

/-- The characters that end a line: line feed, the tabulations and feeds next to it, next line,
and the separators of lines and of paragraphs. -/
def lineBreaks : List Char := ['\n', '\x0b', '\x0c', '\r', '\u0085', '\u2028', '\u2029']

/-- The edges are counted where they pass the character. -/
theorem isVisible_eq_false {c : Char} (k : Nat) (hplain : (' ' ≤ c && c ≤ '~') = false)
    (hodd : k % 2 = 1) (hne : (unprintableEdges.drop k).isEmpty = false)
    (hlow : (unprintableEdges.take k).all (· ≤ c.toNat) = true)
    (hhigh : (unprintableEdges.drop k).all (c.toNat < ·) = true) : isVisible c = false := by
  have hlength : k < unprintableEdges.length := by
    refine Nat.lt_of_not_le fun hle => ?_
    rw [List.drop_eq_nil_of_le hle] at hne
    cases hne
  have htake : (unprintableEdges.take k).countP (· ≤ c.toNat) = k := by
    rw [List.countP_eq_length.2 (List.all_eq_true.1 hlow),
      List.length_take_of_le (Nat.le_of_lt hlength)]
  have hdrop : (unprintableEdges.drop k).countP (· ≤ c.toNat) = 0 := by
    rw [List.countP_eq_zero]
    intro e he
    have hlt := of_decide_eq_true (List.all_eq_true.1 hhigh e he)
    simpa using hlt
  have hunprintable : isUnprintable c = true := by
    rw [isUnprintable, ← List.take_append_drop k unprintableEdges, List.countP_append, htake, hdrop]
    exact decide_eq_true hodd
  rw [isVisible, hplain, hunprintable]
  rfl

theorem isVisible_lineBreak {c : Char} (h : c ∈ lineBreaks) : isVisible c = false := by
  simp only [lineBreaks, List.mem_cons, List.not_mem_nil, or_false] at h
  rcases h with rfl | rfl | rfl | rfl | rfl | rfl | rfl
  iterate 4
    · exact isVisible_eq_false 1 rfl rfl rfl rfl (by decide +kernel)
  · exact isVisible_eq_false 3 rfl rfl rfl rfl (by decide +kernel)
  iterate 2
    · exact isVisible_eq_false 635 rfl rfl (by decide +kernel) (by decide +kernel)
        (by decide +kernel)

end TuneBlocks.Text
