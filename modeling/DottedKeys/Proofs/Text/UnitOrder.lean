import DottedKeys.Proofs.Text.Utf16

/-!
# The order of code units

Texts are compared by the bytes of their units. A unit is written with its more significant byte
first, so this is the order of the units themselves (`encode_lt_iff`). In that order a common
beginning does not matter (`append_le_append_iff`), and neither does what stands behind a mark that
ends both of two lists (`le_of_marked`). The mark itself does: `le_or_continued_of_le` says when a
list stands before another only for the mark behind them.
-/

namespace DottedKeys.Utf16

/-! ## Bytes and units -/

theorem bigEndian_append_lt {u v : UInt16} {rest more : Bytes} :
    bigEndian u ++ rest < bigEndian v ++ more ↔ u < v ∨ u = v ∧ rest < more := by
  have bound := u.toNat_lt
  have bound' := v.toNat_lt
  simp only [bigEndian, List.cons_append, List.nil_append, List.cons_lt_cons_iff]
  rw [← UInt8.toNat_inj, ← UInt8.toNat_inj, ← UInt16.toNat_inj, UInt8.lt_iff_toNat_lt,
    UInt8.lt_iff_toNat_lt, UInt16.lt_iff_toNat_lt]
  simp only [UInt8.toNat_ofNat']
  by_cases less : rest < more
  · simp only [less, and_true]
    omega
  · simp only [less, and_false, or_false]
    omega

/-- Units are compared as their bytes are. -/
theorem flatMap_bigEndian_lt_iff {us vs : List UInt16} :
    us.flatMap bigEndian < vs.flatMap bigEndian ↔ us < vs := by
  induction us generalizing vs with
  | nil =>
    cases vs with
    | nil => simp
    | cons v vs => simp [bigEndian]
  | cons u us ih =>
    cases vs with
    | nil => simp
    | cons v vs =>
      rw [List.flatMap_cons, List.flatMap_cons, bigEndian_append_lt, List.cons_lt_cons_iff, ih]

/-- Texts are compared as their units are. -/
theorem encode_lt_iff {s t : Text} : encode s < encode t ↔ units s < units t :=
  flatMap_bigEndian_lt_iff

/-! ## Marked lists -/

section Marked

variable {us vs more rest : List UInt16} {mark : UInt16}

theorem append_le_append_iff {lead : List UInt16} : lead ++ us ≤ lead ++ vs ↔ us ≤ vs := by
  induction lead with
  | nil => rfl
  | cons u lead ih =>
    rw [List.cons_append, List.cons_append, List.cons_le_cons_iff, ih]
    simp

/-- What stands behind the first mark does not matter. -/
theorem le_of_marked (unmarked : mark ∉ us) (unmarked' : mark ∉ vs)
    (before : us ++ mark :: more ≤ vs ++ mark :: rest) : us ++ [mark] ≤ vs ++ [mark] := by
  induction us generalizing vs with
  | nil =>
    cases vs with
    | nil => exact List.le_refl _
    | cons v vs =>
      have apart : mark ≠ v := fun same => unmarked' (same ▸ List.mem_cons_self)
      rw [List.nil_append, List.cons_append, List.cons_le_cons_iff] at before ⊢
      exact .inl (before.resolve_right fun both => apart both.1)
  | cons u us ih =>
    cases vs with
    | nil =>
      have apart : u ≠ mark := fun same => unmarked (same ▸ List.mem_cons_self)
      rw [List.nil_append, List.cons_append, List.cons_le_cons_iff] at before ⊢
      exact .inl (before.resolve_right fun both => apart both.1)
    | cons v vs =>
      rw [List.cons_append, List.cons_append, List.cons_le_cons_iff] at before ⊢
      refine before.imp_right fun ⟨same, later⟩ => ⟨same, ih ?_ ?_ later⟩
      · exact fun inside => unmarked (List.mem_cons_of_mem u inside)
      · exact fun inside => unmarked' (List.mem_cons_of_mem v inside)

/-- Of two lists that are in order with a mark behind them the first stands before the second, or
goes on from it with something below the mark. -/
theorem le_or_continued_of_le (before : us ++ [mark] ≤ vs ++ [mark]) :
    us ≤ vs ∨ ∃ u rest, us = vs ++ u :: rest ∧ u < mark := by
  induction us generalizing vs with
  | nil => exact .inl (List.nil_le vs)
  | cons u us ih =>
    cases vs with
    | nil =>
      rw [List.nil_append, List.cons_append, List.cons_le_cons_iff] at before
      have below : u < mark := before.resolve_right fun both => by simp at both
      exact .inr ⟨u, us, rfl, below⟩
    | cons v vs =>
      rw [List.cons_append, List.cons_append, List.cons_le_cons_iff] at before
      rw [List.cons_le_cons_iff]
      rcases before with less | ⟨rfl, later⟩
      · exact .inl (.inl less)
      · rcases ih later with ordered | ⟨w, rest, continued, below⟩
        · exact .inl (.inr ⟨rfl, ordered⟩)
        · exact .inr ⟨w, rest, by rw [continued, List.cons_append], below⟩

end Marked

/-! ## Units of texts -/

theorem units_append (s t : Text) : units (s ++ t) = units s ++ units t :=
  List.flatMap_append

/-- A unit of a text is the code point it stands for, or belongs to a pair. -/
theorem mem_units {u : UInt16} {t : Text} (member : u ∈ units t) :
    (∃ c ∈ t, c.val = u.toNat) ∨ 0xD800 ≤ u.toNat := by
  obtain ⟨c, inside, spelled⟩ := List.mem_flatMap.1 member
  by_cases small : c.val < 0x10000
  · rw [unitsOf_small small, List.mem_singleton] at spelled
    refine .inl ⟨c, inside, ?_⟩
    rw [spelled, UInt16.toNat_ofNat']
    omega
  · obtain ⟨high, low, is_high, is_low, halves, -⟩ := unitsOf_large (Nat.le_of_not_lt small)
    rw [CodePoint.isHigh_iff] at is_high
    rw [CodePoint.isLow_iff] at is_low
    rw [halves] at spelled
    right
    rcases List.mem_pair.1 spelled with rfl | rfl
    · rw [UInt16.toNat_ofNat']
      omega
    · rw [UInt16.toNat_ofNat']
      omega

end DottedKeys.Utf16
