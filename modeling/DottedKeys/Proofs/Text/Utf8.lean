import DottedKeys.Text.Utf8

/-!
# The bytes of a text

A text is written as the UTF-8 of its characters, with a question mark in the place of each code
point that is no character (`encode_eq`). A text of characters alone is read back from its bytes
(`decode?_encode`): each code point is led by a byte that says how many follow.
-/

namespace DottedKeys

namespace CodePoint

theorem isValidChar_iff (c : CodePoint) : c.val.isValidChar ↔ c.isSurrogate = false := by
  have bound := c.isLt
  simp only [Nat.isValidChar, isSurrogate, Bool.and_eq_false_iff, decide_eq_false_iff_not]
  omega

theorem toChar?_of_isSurrogate {c : CodePoint} (half : c.isSurrogate = true) : c.toChar? = none := by
  rw [toChar?, dif_neg]
  rw [isValidChar_iff, half]
  simp

theorem exists_char {c : CodePoint} (whole : c.isSurrogate = false) :
    ∃ char, c.toChar? = some char ∧ char.toNat = c.val := by
  have valid := (isValidChar_iff c).2 whole
  refine ⟨Char.ofNatAux c.val valid, by rw [toChar?, dif_pos valid], ?_⟩
  rfl

end CodePoint

namespace Utf8

theorem encodePoint_eq (c : CodePoint) :
    encodePoint c = String.utf8EncodeChar (c.toChar?.getD '?') := by
  cases half : c.isSurrogate with
  | true =>
    rw [encodePoint, if_pos half, CodePoint.toChar?_of_isSurrogate half]
    rfl
  | false =>
    obtain ⟨char, found, number⟩ := CodePoint.exists_char half
    have bound := c.isLt
    have same : char.val.toNat = c.val := number
    rw [encodePoint, half, found, Option.getD_some, String.utf8EncodeChar, same]
    -- Both sides have four forms, and the bits of the first byte of each are within its range.
    by_cases one : c.val < 0x80
    · rw [if_neg Bool.false_ne_true, if_pos one, if_pos (by omega)]
    by_cases two : c.val < 0x800
    · have lead : c.val / 64 % 32 + 192 = 0xC0 + c.val / 64 := by omega
      rw [if_neg Bool.false_ne_true, if_neg one, if_pos two, if_neg (by omega), if_pos (by omega), lead]
      simp only [continuation, Nat.add_comm]
    by_cases three : c.val < 0x10000
    · have lead : c.val / 4096 % 16 + 224 = 0xE0 + c.val / 4096 := by omega
      rw [if_neg Bool.false_ne_true, if_neg one, if_neg two, if_pos three, if_neg (by omega),
        if_neg (by omega), if_pos (by omega), lead]
      simp only [continuation, Nat.add_comm]
    · have lead : c.val / 262144 % 8 + 240 = 0xF0 + c.val / 262144 := by omega
      rw [if_neg Bool.false_ne_true, if_neg one, if_neg two, if_neg three, if_neg (by omega),
        if_neg (by omega), if_neg (by omega), lead]
      simp only [continuation, Nat.add_comm]

/-- A text is written character by character, with a question mark for what is no character. -/
theorem encode_eq (t : Text) :
    encode t = t.flatMap fun c => String.utf8EncodeChar (c.toChar?.getD '?') := by
  rw [encode]
  congr 1
  funext c
  exact encodePoint_eq c

/-- ASCII is written byte by byte. -/
theorem encode_of_ascii {t : Text} (ascii : ∀ c ∈ t, c.val < 0x80) :
    encode t = t.map fun c => .ofNat c.val := by
  induction t with
  | nil => rfl
  | cons c t ih =>
    obtain ⟨small, others⟩ := List.forall_mem_cons.1 ascii
    have whole : c.isSurrogate = false := by
      simp only [CodePoint.isSurrogate, Bool.and_eq_false_iff, decide_eq_false_iff_not]
      omega
    have front : encode (c :: t) = encodePoint c ++ encode t := List.flatMap_cons
    rw [front, ih others, encodePoint, whole, if_neg Bool.false_ne_true, if_pos small]
    rfl

/-! ## Reading what was written -/

theorem toNat_ofNat {n : Nat} (small : n < 0x100) : (UInt8.ofNat n).toNat = n := by
  rw [UInt8.toNat_ofNat']
  exact Nat.mod_eq_of_lt small

theorem scalar?_val {c : CodePoint} (whole : c.isSurrogate = false) {least : Nat}
    (shortest : least ≤ c.val) : scalar? least c.val = some c := by
  simp [scalar?, CodePoint.ofNat?, c.isLt, whole, shortest]

/-- A continuation byte adds six bits to a code point that is still to be finished. -/
theorem decodeAfter_continuation (missing least bits n : Nat) (rest : Bytes) :
    decodeAfter (some ⟨missing, least, bits⟩) (continuation n :: rest) =
      if missing = 1 then do
        let c ← scalar? least (bits * 64 + n % 64)
        return c :: (← decodeAfter none rest)
      else decodeAfter (some ⟨missing - 1, least, bits * 64 + n % 64⟩) rest := by
  have value : (continuation n).toNat = 0x80 + n % 64 := toNat_ofNat (by omega)
  have between : (0x80 ≤ continuation n && continuation n < 0xC0) = true := by
    simp only [Bool.and_eq_true, decide_eq_true_eq, UInt8.le_iff_toNat_le, UInt8.lt_iff_toNat_lt, value]
    constructor
    · show 0x80 ≤ _
      omega
    · show _ < 0xC0
      omega
  rw [decodeAfter, if_pos between, value, Nat.add_sub_cancel_left]

theorem decodeAfter_lead {lead : UInt8} {pending : Pending} (long : 0x80 ≤ lead.toNat)
    (announced : Pending.ofLead? lead = some pending) (rest : Bytes) :
    decodeAfter none (lead :: rest) = decodeAfter (some pending) rest := by
  have not_short : ¬ lead < 0x80 := by
    rw [UInt8.lt_iff_toNat_lt]
    exact Nat.not_lt.2 long
  rw [decodeAfter, if_neg not_short, announced]
  rfl

section Lead

variable {lead : UInt8} {n : Nat}

theorem ofLead?_two (value : lead.toNat = 0xC0 + n) (small : n < 0x20) :
    Pending.ofLead? lead = some ⟨1, 0x80, n⟩ := by
  have below : 0xC0 + n < 0xE0 := by omega
  simp [Pending.ofLead?, UInt8.le_iff_toNat_le, UInt8.lt_iff_toNat_lt, value, below]

theorem ofLead?_three (value : lead.toNat = 0xE0 + n) (small : n < 0x10) :
    Pending.ofLead? lead = some ⟨2, 0x800, n⟩ := by
  have above : ¬ 0xE0 + n < 0xE0 := by omega
  have below : 0xE0 + n < 0xF0 := by omega
  simp [Pending.ofLead?, UInt8.le_iff_toNat_le, UInt8.lt_iff_toNat_lt, value, above, below]

theorem ofLead?_four (value : lead.toNat = 0xF0 + n) (small : n < 0x08) :
    Pending.ofLead? lead = some ⟨3, 0x10000, n⟩ := by
  have above : ¬ 0xF0 + n < 0xE0 ∧ ¬ 0xF0 + n < 0xF0 := by omega
  have below : 0xF0 + n < 0xF8 := by omega
  simp [Pending.ofLead?, UInt8.le_iff_toNat_le, UInt8.lt_iff_toNat_lt, value, above, below]

end Lead

/-- Reading the bytes of a character gives the character, and goes on behind them. -/
theorem decodeAfter_encodePoint {c : CodePoint} (whole : c.isSurrogate = false) (rest : Bytes) :
    decodeAfter none (encodePoint c ++ rest) = do return c :: (← decodeAfter none rest) := by
  have bound := c.isLt
  rw [encodePoint, whole, if_neg Bool.false_ne_true]
  by_cases one : c.val < 0x80
  · have value : (UInt8.ofNat c.val).toNat = c.val := toNat_ofNat (by omega)
    have short : UInt8.ofNat c.val < 0x80 := by
      rw [UInt8.lt_iff_toNat_lt, value]
      exact one
    rw [if_pos one, List.singleton_append, decodeAfter, if_pos short, value]
    simp [CodePoint.ofNat?, bound]
  by_cases two : c.val < 0x800
  · have lead : (UInt8.ofNat (0xC0 + c.val / 64)).toNat = 0xC0 + c.val / 64 := toNat_ofNat (by omega)
    have bits : c.val / 64 * 64 + c.val % 64 = c.val := by omega
    rw [if_neg one, if_pos two, List.cons_append, List.singleton_append,
      decodeAfter_lead (by omega) (ofLead?_two lead (by omega)), decodeAfter_continuation, if_pos rfl,
      bits, scalar?_val whole (by omega)]
    rfl
  by_cases three : c.val < 0x10000
  · have lead : (UInt8.ofNat (0xE0 + c.val / 4096)).toNat = 0xE0 + c.val / 4096 :=
      toNat_ofNat (by omega)
    have bits : (c.val / 4096 * 64 + c.val / 64 % 64) * 64 + c.val % 64 = c.val := by omega
    rw [if_neg one, if_neg two, if_pos three, List.cons_append, List.cons_append,
      List.singleton_append, decodeAfter_lead (by omega) (ofLead?_three lead (by omega)),
      decodeAfter_continuation, if_neg (by decide), decodeAfter_continuation, if_pos rfl, bits,
      scalar?_val whole (by omega)]
    rfl
  · have lead : (UInt8.ofNat (0xF0 + c.val / 262144)).toNat = 0xF0 + c.val / 262144 :=
      toNat_ofNat (by omega)
    have bits : ((c.val / 262144 * 64 + c.val / 4096 % 64) * 64 + c.val / 64 % 64) * 64 +
        c.val % 64 = c.val := by omega
    rw [if_neg one, if_neg two, if_neg three, List.cons_append, List.cons_append, List.cons_append,
      List.singleton_append, decodeAfter_lead (by omega) (ofLead?_four lead (by omega)),
      decodeAfter_continuation, if_neg (by decide), decodeAfter_continuation, if_neg (by decide),
      decodeAfter_continuation, if_pos rfl, bits, scalar?_val whole (by omega)]
    rfl

/-- Characters come back from their bytes. -/
theorem decode?_encode {t : Text} (whole : ∀ c ∈ t, c.isSurrogate = false) :
    decode? (encode t) = some t := by
  rw [decode?]
  induction t with
  | nil => rfl
  | cons c t ih =>
    obtain ⟨first, others⟩ := List.forall_mem_cons.1 whole
    have front : encode (c :: t) = encodePoint c ++ encode t := List.flatMap_cons
    rw [front, decodeAfter_encodePoint first, ih others]
    rfl

end Utf8

end DottedKeys
