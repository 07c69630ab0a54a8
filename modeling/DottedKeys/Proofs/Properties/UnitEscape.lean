import DottedKeys.Proofs.Properties.Spelling
import DottedKeys.Proofs.Text.Utf16

/-!
# Escapes by code unit

Four hexadecimal digits hold one code unit, so a code point above `FFFF` (hexadecimal) can only be
written with two escapes, one for each half of its pair. Each escape is decoded by itself: the halves
are not joined, and such a text does not come back as it was (`unescape_units`). Its units do, so it
is not lost.
-/

namespace DottedKeys.Properties

/-- An escape by number for a code unit, with digits in either case. -/
inductive UnitEscape : UInt16 → Text → Prop where
  | digits {u : UInt16} {d₁ d₂ d₃ d₄ : CodePoint} {v₁ v₂ v₃ v₄ : Nat}
      (first : (d₁, v₁) ∈ hexDigits) (second : (d₂, v₂) ∈ hexDigits)
      (third : (d₃, v₃) ∈ hexDigits) (fourth : (d₄, v₄) ∈ hexDigits)
      (value : u.toNat = ((v₁ * 16 + v₂) * 16 + v₃) * 16 + v₄) :
      UnitEscape u ['\\', 'u', d₁, d₂, d₃, d₄]

/-- Code units one after the other, each written as an escape. -/
inductive UnitEscapes : List UInt16 → Text → Prop where
  | nil : UnitEscapes [] []
  | cons {u : UInt16} {us : List UInt16} {s raw : Text} (first : UnitEscape u s)
      (more : UnitEscapes us raw) : UnitEscapes (u :: us) (s ++ raw)

theorem UnitEscape.spelling {u : UInt16} {s : Text} (h : UnitEscape u s) :
    Spelling (Utf16.ofUnit u) s := by
  cases h with
  | digits first second third fourth value => exact .number first second third fourth value

/-- Escaped units spell the text that has each of them for a code point of its own. -/
theorem UnitEscapes.spelled {us : List UInt16} {raw : Text} (h : UnitEscapes us raw) :
    Spelled (us.map Utf16.ofUnit) raw := by
  induction h with
  | nil => exact .nil
  | cons first more ih => exact .cons first.spelling ih

/-- **Escapes are decoded unit by unit.** If the units of a text without surrogates are written as
escapes, decoding gives a text with the same units, each of them a code point. That is the text itself
exactly if none of its code points is above `FFFF`; in any case the text can be read from the units. -/
theorem unescape_units {t raw : Text} (whole : ∀ c ∈ t, c.isSurrogate = false)
    (escaped : UnitEscapes (Utf16.units t) raw) :
    ∃ read, unescape raw = .ok read ∧ (read = t ↔ ∀ c ∈ t, c.val < 0x10000) ∧
      read = (Utf16.units t).map Utf16.ofUnit ∧ Utf16.units read = Utf16.units t ∧
      Utf16.decodeUnits? (Utf16.units read) = some t := by
  have same := Utf16.units_map_ofUnit (Utf16.units t)
  refine ⟨(Utf16.units t).map Utf16.ofUnit, escaped.spelled.unescape, Utf16.map_ofUnit_units_eq_iff,
    rfl, same, ?_⟩
  rw [same]
  exact Utf16.decodeUnits?_units whole

/-- A text with a letter beyond ASCII and a code point above `FFFF`. -/
def mixedText : Text := "é😀"

/-- The escapes of its units, with digits in both cases. -/
theorem unitEscapes_mixedText :
    UnitEscapes (Utf16.units mixedText) "\\u00E9\\ud83D\\uDe00" := by
  have letter : UnitEscape 0xE9 "\\u00E9" :=
    @UnitEscape.digits 0xE9 '0' '0' 'E' '9' 0 0 14 9 (by decide +kernel) (by decide +kernel)
      (by decide +kernel) (by decide +kernel) rfl
  have high : UnitEscape 0xD83D "\\ud83D" :=
    @UnitEscape.digits 0xD83D 'd' '8' '3' 'D' 13 8 3 13 (by decide +kernel) (by decide +kernel)
      (by decide +kernel) (by decide +kernel) rfl
  have low : UnitEscape 0xDE00 "\\uDe00" :=
    @UnitEscape.digits 0xDE00 'D' 'e' '0' '0' 13 14 0 0 (by decide +kernel) (by decide +kernel)
      (by decide +kernel) (by decide +kernel) rfl
  have units : Utf16.units mixedText = [0xE9, 0xD83D, 0xDE00] := by decide +kernel
  rw [units]
  exact .cons letter (.cons high (.cons low .nil))

theorem whole_mixedText : ∀ c ∈ mixedText, c.isSurrogate = false := by
  decide +kernel

theorem unescape_units_mixedText :
    (∀ c ∈ mixedText, c.isSurrogate = false) ∧
      UnitEscapes (Utf16.units mixedText) "\\u00E9\\ud83D\\uDe00" ∧
      ∃ read, unescape "\\u00E9\\ud83D\\uDe00" = .ok read ∧ read ≠ mixedText ∧
        Utf16.units read = Utf16.units mixedText ∧
        Utf16.decodeUnits? (Utf16.units read) = some mixedText := by
  obtain ⟨read, decoded, back, -, same, joined⟩ := unescape_units whole_mixedText unitEscapes_mixedText
  refine ⟨whole_mixedText, unitEscapes_mixedText, read, decoded, fun recovered => ?_, same, joined⟩
  have small := back.1 recovered
  revert small
  decide +kernel

/-- A code point above `FFFF` does not come back from its escapes. -/
theorem exists_not_recovered :
    ∃ t raw : Text, (∀ c ∈ t, c.isSurrogate = false) ∧ UnitEscapes (Utf16.units t) raw ∧
      unescape raw ≠ .ok t := by
  refine ⟨mixedText, _, whole_mixedText, unitEscapes_mixedText, ?_⟩
  decide +kernel

end DottedKeys.Properties
