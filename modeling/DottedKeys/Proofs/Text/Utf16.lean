import DottedKeys.Text.Utf16
import Mathlib.Data.List.Chain

/-!
# Texts that share their units

A high surrogate right before a low one is written with the units of one code point above `FFFF`
(hexadecimal), and nothing else is ambiguous: texts without such a pair are known by their units
(`units_inj`), and by the bytes of these (`encode_inj`). Texts without surrogates are read back from
their units (`decodeUnits?_units`), but not if each unit is read by itself
(`map_ofUnit_units_eq_iff`).
-/

namespace DottedKeys

namespace CodePoint

/-- First half of a pair. -/
def isHigh (c : CodePoint) : Bool :=
  0xD800 ≤ c.val && c.val < 0xDC00

/-- Second half of a pair. -/
def isLow (c : CodePoint) : Bool :=
  0xDC00 ≤ c.val && c.val < 0xE000

theorem isHigh_iff {c : CodePoint} : c.isHigh = true ↔ 0xD800 ≤ c.val ∧ c.val < 0xDC00 := by
  simp [isHigh]

theorem isLow_iff {c : CodePoint} : c.isLow = true ↔ 0xDC00 ≤ c.val ∧ c.val < 0xE000 := by
  simp [isLow]

theorem eq_of_val_eq {c d : CodePoint} (same : c.val = d.val) : c = d := by
  cases c
  cases d
  simpa using same

end CodePoint

/-- No high surrogate of a text stands right before a low one. -/
def Text.Unpaired (t : Text) : Prop :=
  t.IsChain fun c d => ¬ (c.isHigh = true ∧ d.isLow = true)

instance (t : Text) : Decidable t.Unpaired :=
  inferInstanceAs (Decidable (t.IsChain _))

theorem Text.Unpaired.of_cons {c : CodePoint} {t : Text} (unpaired : Unpaired (c :: t)) :
    Unpaired t := by
  cases unpaired with
  | singleton => exact .nil
  | cons_cons apart rest => exact rest

theorem Text.Unpaired.not_pair {c d : CodePoint} {t : Text} (unpaired : Unpaired (c :: d :: t))
    (high : c.isHigh = true) : d.isLow = false := by
  cases unpaired with
  | cons_cons apart rest => simpa [high] using apart

namespace Utf16

/-! ## Units -/

theorem units_cons (c : CodePoint) (t : Text) : units (c :: t) = unitsOf c ++ units t := by
  rw [units, units, List.flatMap_cons]

theorem units_cons_ne_nil (c : CodePoint) (t : Text) : units (c :: t) ≠ [] := by
  rw [units_cons, unitsOf]
  split <;> simp

theorem ofNat_inj {m n : Nat} (hm : m < 0x10000) (hn : n < 0x10000) :
    UInt16.ofNat m = UInt16.ofNat n ↔ m = n := by
  rw [← UInt16.toNat_inj, UInt16.toNat_ofNat', UInt16.toNat_ofNat']
  omega

/-- Code points up to `FFFF` are their own units. -/
theorem unitsOf_small {c : CodePoint} (small : c.val < 0x10000) : unitsOf c = [.ofNat c.val] := by
  rw [unitsOf, if_pos small]

/-- Code points above `FFFF` are units of a high and a low surrogate. -/
theorem unitsOf_large {c : CodePoint} (large : 0x10000 ≤ c.val) :
    ∃ high low : CodePoint, high.isHigh = true ∧ low.isLow = true ∧
      unitsOf c = [.ofNat high.val, .ofNat low.val] ∧
      c.val = 0x10000 + (high.val - 0xD800) * 0x400 + (low.val - 0xDC00) := by
  have bound := c.isLt
  refine ⟨⟨0xD800 + (c.val - 0x10000) / 0x400, by omega⟩,
    ⟨0xDC00 + (c.val - 0x10000) % 0x400, by omega⟩, ?_, ?_, ?_, ?_⟩
  · rw [CodePoint.isHigh_iff]
    dsimp only
    omega
  · rw [CodePoint.isLow_iff]
    dsimp only
    omega
  · rw [unitsOf, if_neg (by omega)]
  · dsimp only
    omega

/-- Units that start with a low surrogate are those of a text that does. -/
theorem exists_low_of_units {t : Text} {low : CodePoint} {rest : List UInt16}
    (is_low : low.isLow = true) (spelled : units t = .ofNat low.val :: rest) :
    ∃ more, t = low :: more := by
  have bound := CodePoint.isLow_iff.1 is_low
  cases t with
  | nil => simp [units] at spelled
  | cons c t =>
    rw [units_cons] at spelled
    by_cases small : c.val < 0x10000
    · rw [unitsOf_small small] at spelled
      have same := (ofNat_inj small (by omega)).1 (List.cons.inj spelled).1
      rw [CodePoint.eq_of_val_eq same]
      exact ⟨t, rfl⟩
    · obtain ⟨high, after, is_high, -, halves, -⟩ := unitsOf_large (Nat.le_of_not_lt small)
      have bound' := CodePoint.isHigh_iff.1 is_high
      rw [halves] at spelled
      have same := (ofNat_inj (by omega) (by omega)).1 (List.cons.inj spelled).1
      omega

/-- What is written with the units of a code point above `FFFF` starts with that code point, unless
it starts with a pair. -/
theorem not_small_of_large {c d : CodePoint} {s t : Text} (small : c.val < 0x10000)
    (large : 0x10000 ≤ d.val) (unpaired : Text.Unpaired (c :: s)) :
    units (c :: s) ≠ units (d :: t) := by
  intro same
  obtain ⟨high, low, is_high, is_low, halves, -⟩ := unitsOf_large large
  have bound := CodePoint.isHigh_iff.1 is_high
  rw [units_cons, units_cons, unitsOf_small small, halves] at same
  obtain ⟨first, rest⟩ := List.cons.inj same
  obtain rfl := CodePoint.eq_of_val_eq ((ofNat_inj small (by omega)).1 first)
  obtain ⟨more, rfl⟩ := exists_low_of_units is_low rest
  rw [unpaired.not_pair is_high] at is_low
  contradiction

/-- Equal units that start with code points above `FFFF` start with the same one. -/
theorem eq_of_large {c d : CodePoint} {s t : Text} (hc : 0x10000 ≤ c.val) (hd : 0x10000 ≤ d.val)
    (same : units (c :: s) = units (d :: t)) : c = d ∧ units s = units t := by
  obtain ⟨high, low, is_high, is_low, halves, value⟩ := unitsOf_large hc
  obtain ⟨high', low', is_high', is_low', halves', value'⟩ := unitsOf_large hd
  rw [CodePoint.isHigh_iff] at is_high is_high'
  rw [CodePoint.isLow_iff] at is_low is_low'
  rw [units_cons, units_cons, halves, halves'] at same
  obtain ⟨first, more⟩ := List.cons.inj same
  obtain ⟨second, rest⟩ := List.cons.inj more
  rw [ofNat_inj (by omega) (by omega)] at first second
  exact ⟨CodePoint.eq_of_val_eq (by omega), rest⟩

/-- Texts without pairs are known by their units. -/
theorem units_inj {s t : Text} (hs : s.Unpaired) (ht : t.Unpaired) : units s = units t ↔ s = t := by
  refine ⟨fun same => ?_, fun same => same ▸ rfl⟩
  induction s generalizing t with
  | nil =>
    cases t with
    | nil => rfl
    | cons d t => exact absurd same.symm (units_cons_ne_nil d t)
  | cons c s ih =>
    cases t with
    | nil => exact absurd same (units_cons_ne_nil c s)
    | cons d t =>
      have parts : c = d ∧ units s = units t := by
        by_cases hc : c.val < 0x10000 <;> by_cases hd : d.val < 0x10000
        · rw [units_cons, units_cons, unitsOf_small hc, unitsOf_small hd] at same
          obtain ⟨first, rest⟩ := List.cons.inj same
          exact ⟨CodePoint.eq_of_val_eq ((ofNat_inj hc hd).1 first), rest⟩
        · exact absurd same (not_small_of_large hc (Nat.le_of_not_lt hd) hs)
        · exact absurd same.symm (not_small_of_large hd (Nat.le_of_not_lt hc) ht)
        · exact eq_of_large (Nat.le_of_not_lt hc) (Nat.le_of_not_lt hd) same
      rw [parts.1, ih hs.of_cons ht.of_cons parts.2]

/-! ## Reading units -/

theorem isHigh_ofNat {n : Nat} (unit : n < 0x10000) :
    isHigh (.ofNat n) = true ↔ 0xD800 ≤ n ∧ n < 0xDC00 := by
  have value : (UInt16.ofNat n).toNat = n := UInt16.toNat_ofNat_of_lt' unit
  simp [isHigh, UInt16.le_iff_toNat_le, UInt16.lt_iff_toNat_lt, value]

theorem isLow_ofNat {n : Nat} (unit : n < 0x10000) :
    isLow (.ofNat n) = true ↔ 0xDC00 ≤ n ∧ n < 0xE000 := by
  have value : (UInt16.ofNat n).toNat = n := UInt16.toNat_ofNat_of_lt' unit
  simp [isLow, UInt16.le_iff_toNat_le, UInt16.lt_iff_toNat_lt, value]

theorem ofUnit_ofNat {c : CodePoint} (small : c.val < 0x10000) : ofUnit (.ofNat c.val) = c :=
  CodePoint.eq_of_val_eq (UInt16.toNat_ofNat_of_lt' small)

/-- A text without halves of pairs is read back from its units. -/
theorem decodeUnits?_units {t : Text} (whole : ∀ c ∈ t, c.isSurrogate = false) :
    decodeUnits? (units t) = some t := by
  induction t with
  | nil => rfl
  | cons c t ih =>
    have rest := ih fun d inside => whole d (List.mem_cons_of_mem c inside)
    have bound := c.isLt
    rw [units_cons]
    by_cases small : c.val < 0x10000
    · have single : ¬ (0xD800 ≤ c.val ∧ c.val < 0xE000) := by
        simpa [CodePoint.isSurrogate] using whole c List.mem_cons_self
      have not_high : ¬ isHigh (.ofNat c.val) = true := by
        rw [isHigh_ofNat small]
        omega
      have not_low : ¬ isLow (.ofNat c.val) = true := by
        rw [isLow_ofNat small]
        omega
      rw [unitsOf_small small, List.singleton_append, decodeUnits?.eq_def]
      simp only [if_neg not_high, if_neg not_low, rest, Option.map_some, ofUnit_ofNat small]
    · obtain ⟨high, low, is_high, is_low, halves, value⟩ := unitsOf_large (Nat.le_of_not_lt small)
      rw [CodePoint.isHigh_iff] at is_high
      rw [CodePoint.isLow_iff] at is_low
      have first : isHigh (.ofNat high.val) = true := (isHigh_ofNat (by omega)).2 is_high
      have second : isLow (.ofNat low.val) = true := (isLow_ofNat (by omega)).2 is_low
      have joined : ofPair (.ofNat high.val) (.ofNat low.val) = c := by
        have high_unit : high.val < 0x10000 := by omega
        have low_unit : low.val < 0x10000 := by omega
        apply CodePoint.eq_of_val_eq
        simp only [ofPair, UInt16.toNat_ofNat_of_lt' high_unit, UInt16.toNat_ofNat_of_lt' low_unit]
        omega
      rw [halves, List.cons_append, List.singleton_append, decodeUnits?.eq_def]
      simp only [first, second, if_true, rest, Option.map_some, joined]

theorem unitsOf_ofUnit (u : UInt16) : unitsOf (ofUnit u) = [u] := by
  have unit : (ofUnit u).val < 0x10000 := u.toNat_lt
  rw [unitsOf_small unit]
  exact congrArg (fun v => [v]) UInt16.ofNat_toNat

theorem units_map_ofUnit (us : List UInt16) : units (us.map ofUnit) = us := by
  induction us with
  | nil => rfl
  | cons u us ih => rw [List.map_cons, units_cons, unitsOf_ofUnit, ih, List.singleton_append]

/-- Units read one by one are the text itself exactly if no code point takes two of them. -/
theorem map_ofUnit_units_eq_iff {t : Text} :
    (units t).map ofUnit = t ↔ ∀ c ∈ t, c.val < 0x10000 := by
  constructor
  · intro same c inside
    rw [← same] at inside
    obtain ⟨u, -, rfl⟩ := List.mem_map.1 inside
    exact u.toNat_lt
  · intro small
    induction t with
    | nil => rfl
    | cons c t ih =>
      have first := small c List.mem_cons_self
      rw [units_cons, unitsOf_small first, List.singleton_append, List.map_cons, ofUnit_ofNat first,
        ih fun d inside => small d (List.mem_cons_of_mem c inside)]

/-! ## Bytes -/

theorem bigEndian_append_inj {u v : UInt16} {rest more : Bytes} :
    bigEndian u ++ rest = bigEndian v ++ more ↔ u = v ∧ rest = more := by
  constructor
  · intro same
    simp only [bigEndian, List.cons_append, List.nil_append, List.cons.injEq] at same
    obtain ⟨first, second, rest⟩ := same
    have := u.toNat_lt
    have := v.toNat_lt
    rw [← UInt8.toNat_inj, UInt8.toNat_ofNat', UInt8.toNat_ofNat'] at first second
    refine ⟨UInt16.toNat_inj.1 ?_, rest⟩
    omega
  · rintro ⟨rfl, rfl⟩
    rfl

/-- Units are known by their bytes. -/
theorem flatMap_bigEndian_inj {us vs : List UInt16} :
    us.flatMap bigEndian = vs.flatMap bigEndian ↔ us = vs := by
  refine ⟨fun same => ?_, fun same => same ▸ rfl⟩
  induction us generalizing vs with
  | nil =>
    cases vs with
    | nil => rfl
    | cons v vs => simp [bigEndian] at same
  | cons u us ih =>
    cases vs with
    | nil => simp [bigEndian] at same
    | cons v vs =>
      rw [List.flatMap_cons, List.flatMap_cons, bigEndian_append_inj] at same
      rw [same.1, ih same.2]

/-- Texts without pairs are known by their bytes. -/
theorem encode_inj {s t : Text} (hs : s.Unpaired) (ht : t.Unpaired) :
    encode s = encode t ↔ s = t := by
  rw [encode, encode, flatMap_bigEndian_inj, units_inj hs ht]

end Utf16

end DottedKeys
