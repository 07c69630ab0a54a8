import DottedKeys.Proofs.Text.UnitOrder

/-!
# The order of ranks

Comparing texts by their units ranks code points nearly as they are numbered. A code point above
`FFFF` (hexadecimal) is written with surrogates, so it ranks behind `D7FF` and before `E000`.
`unitsOf_append_lt_iff` is this for one code point, and by `units_lt_iff_before` two texts without
surrogates are in order exactly as their first difference is.
-/

namespace DottedKeys

namespace CodePoint

/-- Where a code point that is no surrogate stands in the order of units: those from `E000` to `FFFF`
go behind all others, which stay as they are numbered. -/
def rank (c : CodePoint) : Nat :=
  if 0xE000 ≤ c.val ∧ c.val < 0x10000 then 0x110000 + c.val else c.val

/-- Ranks agree with numbers but for a code point above `FFFF` and one from `E000` to `FFFF`. -/
theorem rank_lt_iff {c d : CodePoint} :
    c.rank < d.rank ↔
      (0x10000 ≤ c.val ∧ 0xE000 ≤ d.val ∧ d.val < 0x10000) ∨
        (c.val < d.val ∧ ¬ (0xE000 ≤ c.val ∧ c.val < 0x10000 ∧ 0x10000 ≤ d.val)) := by
  have bound := c.isLt
  have bound' := d.isLt
  unfold rank
  split <;> split <;> omega

end CodePoint

/-- One text stands before another: it is where that one begins, or it has the lower rank where the
two first differ. -/
def Text.Before (s t : Text) : Prop :=
  (∃ d rest, t = s ++ d :: rest) ∨
    ∃ lead c d rest more, s = lead ++ c :: rest ∧ t = lead ++ d :: more ∧ c.rank < d.rank

namespace Text

theorem nil_before_cons (d : CodePoint) (t : Text) : Before [] (d :: t) :=
  .inl ⟨d, t, rfl⟩

theorem not_before_nil (s : Text) : ¬ Before s [] := by
  rintro (⟨d, rest, whole⟩ | ⟨lead, c, d, rest, more, -, whole, -⟩)
  · simp at whole
  · simp at whole

/-- The first code points decide unless they are the same. -/
theorem cons_before_cons_iff {c d : CodePoint} {s t : Text} :
    Before (c :: s) (d :: t) ↔ c.rank < d.rank ∨ c = d ∧ Before s t := by
  constructor
  · rintro (⟨e, rest, whole⟩ | ⟨lead, a, b, rest, more, first, second, lower⟩)
    · obtain ⟨rfl, later⟩ := List.cons.inj whole
      exact .inr ⟨rfl, .inl ⟨e, rest, later⟩⟩
    · cases lead with
      | nil =>
        obtain ⟨rfl, -⟩ := List.cons.inj first
        obtain ⟨rfl, -⟩ := List.cons.inj second
        exact .inl lower
      | cons e lead =>
        obtain ⟨rfl, earlier⟩ := List.cons.inj first
        obtain ⟨rfl, later⟩ := List.cons.inj second
        exact .inr ⟨rfl, .inr ⟨lead, a, b, rest, more, earlier, later, lower⟩⟩
  · rintro (lower | ⟨rfl, ⟨e, rest, rfl⟩ | ⟨lead, a, b, rest, more, rfl, rfl, lower⟩⟩)
    · exact .inr ⟨[], c, d, s, t, rfl, rfl, lower⟩
    · exact .inl ⟨e, rest, rfl⟩
    · exact .inr ⟨c :: lead, a, b, rest, more, rfl, rfl, lower⟩

end Text

namespace Utf16

theorem ofNat_lt_ofNat {m n : Nat} (hm : m < 0x10000) (hn : n < 0x10000) :
    UInt16.ofNat m < UInt16.ofNat n ↔ m < n := by
  rw [UInt16.lt_iff_toNat_lt, UInt16.toNat_ofNat', UInt16.toNat_ofNat']
  omega

/-- Units that start with those of two code points are in order as the ranks of these are. -/
theorem unitsOf_append_lt_iff {c d : CodePoint} (whole : c.isSurrogate = false)
    (whole' : d.isSurrogate = false) {us vs : List UInt16} :
    unitsOf c ++ us < unitsOf d ++ vs ↔ c.rank < d.rank ∨ c = d ∧ us < vs := by
  have same_iff : c = d ↔ c.val = d.val := ⟨fun same => same ▸ rfl, CodePoint.eq_of_val_eq⟩
  simp only [CodePoint.isSurrogate, Bool.and_eq_false_iff, decide_eq_false_iff_not] at whole whole'
  rw [CodePoint.rank_lt_iff, same_iff]
  by_cases small : c.val < 0x10000 <;> by_cases small' : d.val < 0x10000
  · rw [unitsOf_small small, unitsOf_small small', List.singleton_append, List.singleton_append,
      List.cons_lt_cons_iff, ofNat_lt_ofNat small small', ofNat_inj small small']
    exact or_congr_left (by omega)
  · obtain ⟨high, low, is_high, -, halves, -⟩ := unitsOf_large (Nat.le_of_not_lt small')
    rw [CodePoint.isHigh_iff] at is_high
    have apart : c.val ≠ high.val := by omega
    have apart' : c.val ≠ d.val := by omega
    rw [unitsOf_small small, halves, List.singleton_append, List.cons_append,
      List.cons_lt_cons_iff, ofNat_lt_ofNat small (by omega), ofNat_inj small (by omega)]
    simp only [apart, apart', false_and, or_false]
    omega
  · obtain ⟨high, low, is_high, -, halves, -⟩ := unitsOf_large (Nat.le_of_not_lt small)
    rw [CodePoint.isHigh_iff] at is_high
    have apart : high.val ≠ d.val := by omega
    have apart' : c.val ≠ d.val := by omega
    rw [unitsOf_small small', halves, List.singleton_append, List.cons_append,
      List.cons_lt_cons_iff, ofNat_lt_ofNat (by omega) small', ofNat_inj (by omega) small']
    simp only [apart, apart', false_and, or_false]
    omega
  · obtain ⟨high, low, is_high, is_low, halves, value⟩ := unitsOf_large (Nat.le_of_not_lt small)
    obtain ⟨high', low', is_high', is_low', halves', value'⟩ :=
      unitsOf_large (Nat.le_of_not_lt small')
    rw [CodePoint.isHigh_iff] at is_high is_high'
    rw [CodePoint.isLow_iff] at is_low is_low'
    rw [halves, halves']
    simp only [List.cons_append, List.nil_append, List.cons_lt_cons_iff]
    rw [ofNat_lt_ofNat (by omega) (by omega), ofNat_lt_ofNat (by omega) (by omega),
      ofNat_inj (by omega) (by omega), ofNat_inj (by omega) (by omega), and_or_left, ← and_assoc,
      ← or_assoc]
    refine or_congr ?_ (and_congr_left' ?_)
    · omega
    · omega

/-- Texts without surrogates are in the order of their units as they are in that of ranks. -/
theorem units_lt_iff_before {s t : Text} (whole : ∀ c ∈ s, c.isSurrogate = false)
    (whole' : ∀ c ∈ t, c.isSurrogate = false) : units s < units t ↔ s.Before t := by
  induction s generalizing t with
  | nil =>
    cases t with
    | nil => simp [Text.not_before_nil, units]
    | cons d t =>
      obtain ⟨u, us, spelled⟩ := List.exists_cons_of_ne_nil (units_cons_ne_nil d t)
      refine iff_of_true ?_ (Text.nil_before_cons d t)
      rw [spelled]
      exact List.nil_lt_cons u us
  | cons c s ih =>
    cases t with
    | nil => exact iff_of_false (List.not_lt_nil _) (Text.not_before_nil _)
    | cons d t =>
      rw [units_cons, units_cons, unitsOf_append_lt_iff (whole c List.mem_cons_self)
        (whole' d List.mem_cons_self), Text.cons_before_cons_iff,
        ih (fun e inside => whole e (List.mem_cons_of_mem c inside))
          (fun e inside => whole' e (List.mem_cons_of_mem d inside))]

end Utf16

end DottedKeys
