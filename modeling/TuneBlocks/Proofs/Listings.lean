import TuneBlocks.Operand
import TuneBlocks.Proofs.NumberTexts
import TuneBlocks.Proofs.Quotation

/-!
# Operands in listings

The first character of a listed operand tells its kind (`ofFirst_listing`): a dollar sign a
variable, a quote a text, the first letter of a truth value that, and any other character a number.
Within a kind, names stand as they are, texts are quoted, and numbers are displayed; so a listing
determines its operand.
-/

namespace TuneBlocks.Operand

/-- The kinds of operands. -/
inductive Kind where
  | var
  | text
  | bool
  | number
deriving DecidableEq

def kind : Operand → Kind
  | var _ => .var
  | literal (.text _) => .text
  | literal (.bool _) => .bool
  | literal (.number _) => .number

/-- The kind of the operands that are listed with this character first. -/
def Kind.ofFirst (c : Char) : Kind :=
  if c = '$' then .var
  else if c = '"' then .text
  else if c = 't' ∨ c = 'f' then .bool
  else .number

theorem ofFirst_of_begins {c : Char} (h : c = '-' ∨ NumberFormat.begins c = true) :
    Kind.ofFirst c = .number := by
  have hdollar : c ≠ '$' := by
    rintro rfl
    exact absurd h (by decide)
  have hquote : c ≠ '"' := by
    rintro rfl
    exact absurd h (by decide)
  have hletter : ¬ (c = 't' ∨ c = 'f') := by
    rintro (rfl | rfl)
    · exact absurd h (by decide)
    · exact absurd h (by decide)
  unfold Kind.ofFirst
  rw [if_neg hdollar, if_neg hquote, if_neg hletter]

theorem display_cons (x : Float) : ∃ c t, (NumberFormat.display.render x).toList = c :: t ∧
    (c = '-' ∨ NumberFormat.begins c = true) := by
  obtain ⟨c, t, hbody, hc⟩ := @NumberFormat.body_cons x
  rw [NumberFormat.toList_display, hbody]
  split
  · exact ⟨'-', _, rfl, .inl rfl⟩
  · exact ⟨c, t, rfl, .inr hc⟩

/-- **The first character of a listed operand tells its kind.** -/
theorem ofFirst_listing (a : Operand) : a.listing.toList.head?.map Kind.ofFirst = some a.kind := by
  cases a with
  | var name =>
    rw [listing, String.toList_append]
    rfl
  | literal v =>
    cases v with
    | text s =>
      rw [listing, Text.toList_quote]
      rfl
    | bool b => cases b <;> rfl
    | number x =>
      obtain ⟨c, t, hlist, hc⟩ := display_cons x
      change ((NumberFormat.display.render x).toList.head?.map Kind.ofFirst) = some .number
      rw [hlist, List.head?_cons, Option.map_some, ofFirst_of_begins hc]

theorem display_bool_injective {b b' : Bool}
    (h : (Value.bool b).display = (Value.bool b').display) : b = b' := by
  cases b <;> cases b'
  · rfl
  · exact absurd h (by decide)
  · exact absurd h (by decide)
  · rfl

theorem listing_injective {a b : Operand} (h : a.listing = b.listing) : a = b := by
  have hkind : a.kind = b.kind := by
    rw [← Option.some_inj, ← ofFirst_listing, ← ofFirst_listing, h]
  cases a with
  | var name =>
    cases b with
    | var name' => rw [(String.append_right_inj "$").1 h]
    | literal w => cases w <;> cases hkind
  | literal v =>
    cases b with
    | var name => cases v <;> cases hkind
    | literal w =>
      cases v with
      | text s =>
        cases w with
        | text t => rw [Text.quote_injective h]
        | bool b => cases hkind
        | number y => cases hkind
      | bool b =>
        cases w with
        | text t => cases hkind
        | bool b' => rw [display_bool_injective h]
        | number y => cases hkind
      | number x =>
        cases w with
        | text t => cases hkind
        | bool b => cases hkind
        | number y => rw [NumberFormat.display_injective h]

/-- **Listings are unambiguous.** Operands that are listed alike are the same variable, text, truth
value or number, whatever characters names and texts are made of. And a text is listed on one line:
none of the characters that end a line stands in it as it is. -/
theorem listings_unambiguous :
    (∀ a b : Operand, a.listing = b.listing ↔ a = b) ∧
    ∀ (s : String), ∀ c ∈ Text.lineBreaks, c ∉ (literal (.text s)).listing.toList := by
  refine ⟨fun a b => ⟨listing_injective, congrArg listing⟩, fun s c hc hmem => ?_⟩
  have hvisible := Text.isVisible_of_mem_quote hmem
  rw [Text.isVisible_lineBreak hc] at hvisible
  cases hvisible

/-- A text that imitates an escape, and the one that is escaped so. -/
example : (literal (.text "\\u\x7b301\x7d")).listing = "\"\\\\u\x7b301\x7d\"" ∧
    (literal (.text "\u0301")).listing = "\"\\u\x7b301\x7d\"" := by
  decide +kernel

end TuneBlocks.Operand
