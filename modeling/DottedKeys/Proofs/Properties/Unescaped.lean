import DottedKeys.Proofs.Properties.Lexeme

/-!
# Unescaped places

Whether an escape is open at a place of a text is found by a scan from the left where a key is cut
off, and by a count of backslashes from the right where a value is trimmed. A key ends at the first
delimiter that the scan finds unescaped (`lt_length_cutKey_iff`), and what is trimmed are the blanks at
the end that it finds unescaped (`length_trimValue_le_iff`). Decoding leaves such blanks as they are
(`toOption_unescape_append`), so it makes no difference to what stands before them whether they are
trimmed first. `scans_agree` puts this together.
-/

namespace DottedKeys.Properties

/-- Whether a code point of some kind stands at a place of a text with no escape open before it, where
`escaped` says whether one is open at the beginning. -/
def isUnescapedAt (kind : CodePoint → Bool) (escaped : Bool) (t : Text) (place : Nat) : Bool :=
  t[place]?.any kind && !isOpenAfter escaped (t.take place)

section Place

variable {kind : CodePoint → Bool} {escaped : Bool} {t : Text} {c : CodePoint}

theorem isUnescapedAt_zero :
    isUnescapedAt kind escaped (c :: t) 0 = (kind c && !escaped) :=
  rfl

theorem isUnescapedAt_succ (place : Nat) :
    isUnescapedAt kind escaped (c :: t) (place + 1) =
      isUnescapedAt kind (!escaped && isBackslash c) t place := by
  simp only [isUnescapedAt, List.getElem?_cons_succ, List.take_succ_cons, isOpenAfter]

/-- Up to a place there is nothing unescaped of a kind if the first code point is none such, nor any
of those behind it. -/
theorem forall_le_succ_iff {place : Nat} :
    (∀ earlier ≤ place + 1, isUnescapedAt kind escaped (c :: t) earlier = false) ↔
      (kind c && !escaped) = false ∧
        ∀ earlier ≤ place, isUnescapedAt kind (!escaped && isBackslash c) t earlier = false := by
  simp only [← Nat.lt_succ_iff, Nat.forall_lt_succ_left (n := place + 1), isUnescapedAt_zero,
    isUnescapedAt_succ]

/-- What follows a place has no say in it. -/
theorem isUnescapedAt_append {place : Nat} (inside : place < t.length) (more : Text) :
    isUnescapedAt kind escaped (t ++ more) place = isUnescapedAt kind escaped t place := by
  rw [isUnescapedAt, isUnescapedAt, List.getElem?_append_left inside,
    List.take_append_of_le_length (Nat.le_of_lt inside)]

theorem isUnescapedAt_append_cons (more : Text) :
    isUnescapedAt kind escaped (t ++ c :: more) t.length = (kind c && !isOpenAfter escaped t) := by
  simp [isUnescapedAt]

end Place

/-! ## The end of the key -/

/-- A place is part of the key exactly if no unescaped delimiter stands there or before it. -/
theorem lt_length_cutKey_iff {escaped : Bool} {t : Text} {place : Nat} :
    place < (cutKey escaped t).1.length ↔
      place < t.length ∧ ∀ earlier ≤ place, isUnescapedAt isDelimiter escaped t earlier = false := by
  induction t generalizing escaped place with
  | nil => simp [cutKey]
  | cons c rest ih =>
    rw [cutKey]
    split
    next ends =>
      rw [Bool.and_comm] at ends
      refine iff_of_false (Nat.not_lt_zero place) fun inside => ?_
      have first := inside.2 0 (Nat.zero_le place)
      rw [isUnescapedAt_zero, ends] at first
      contradiction
    next goes_on =>
      rw [Bool.and_comm, Bool.not_eq_true] at goes_on
      cases place with
      | zero => simp [isUnescapedAt_zero, goes_on]
      | succ place =>
        rw [List.length_cons, List.length_cons, Nat.add_lt_add_iff_right, Nat.add_lt_add_iff_right, ih,
          forall_le_succ_iff, and_iff_right goes_on]

/-! ## The end of the value -/

/-- A text is trimmed from a place on exactly if nothing but unescaped blanks stands there and behind
it. -/
theorem length_trimValue_le_iff {t : Text} {place : Nat} :
    (trimValue t).length ≤ place ↔
      ∀ later, place ≤ later → later < t.length → isUnescapedAt isBlank false t later = true := by
  induction t using List.reverseRecOn with
  | nil => simp [trimValue_nil]
  | append_singleton t c ih =>
    have last : isUnescapedAt isBlank false (t ++ [c]) t.length =
        (isBlank c && !isOpenAfter false t) := isUnescapedAt_append_cons []
    rw [trimValue_concat, ← last, List.length_append, List.length_singleton]
    split
    next trimmed =>
      rw [ih]
      refine ⟨fun blank later behind inside => ?_, fun blank later behind inside => ?_⟩
      · rcases Nat.lt_or_eq_of_le (Nat.le_of_lt_succ inside) with before | rfl
        · rw [isUnescapedAt_append before]
          exact blank later behind before
        · exact trimmed
      · rw [← isUnescapedAt_append inside [c]]
        exact blank later behind (Nat.lt_succ_of_lt inside)
    next kept =>
      rw [List.length_append, List.length_singleton]
      refine ⟨fun whole later behind inside => ?_, fun blank => ?_⟩
      · omega
      · by_contra short
        exact kept (blank t.length (by omega) (Nat.lt_succ_self _))

/-- What is trimmed are blanks, and if there are any, what is left ends outside an escape. -/
theorem exists_trimmed (t : Text) :
    ∃ blanks, t = trimValue t ++ blanks ∧ AllBlank blanks ∧
      (blanks ≠ [] → isOpenAfter false (trimValue t) = false) := by
  obtain ⟨blanks, whole⟩ := trimValue_isPrefix t
  have trimmed := length_trimValue_le_iff.1 (Nat.le_refl (trimValue t).length)
  refine ⟨blanks, whole.symm, ?_⟩
  generalize trimValue t = kept at whole trimmed
  subst whole
  constructor
  · intro c inside
    obtain ⟨before, after, rfl⟩ := List.append_of_mem inside
    have here := trimmed (kept ++ before).length (by simp) (by simp)
    rw [← List.append_assoc, isUnescapedAt_append_cons, Bool.and_eq_true] at here
    exact here.1
  · intro some_blank
    obtain ⟨c, more, rfl⟩ := List.exists_cons_of_ne_nil some_blank
    have first := trimmed kept.length (Nat.le_refl _) (by simp)
    rw [isUnescapedAt_append_cons, Bool.and_eq_true, Bool.not_eq_true'] at first
    exact first.2

/-! ## Decoding what is trimmed -/

/-- Blanks do not make up for missing digits. -/
theorem StartsWithDigits.of_append_blanks {t blanks : Text} (starts : StartsWithDigits (t ++ blanks))
    (blank : AllBlank blanks) : StartsWithDigits t := by
  obtain ⟨long, digits⟩ := starts
  by_cases enough : 4 ≤ t.length
  · rw [List.take_append_of_le_length enough] at digits
    exact ⟨enough, digits⟩
  · -- One of the four would be a blank.
    cases blanks with
    | nil => exact absurd (by simpa using long) enough
    | cons c more =>
      have within : t ++ [c] <+: (t ++ c :: more).take 4 := by
        refine List.prefix_take_iff.2 ⟨⟨more, by simp⟩, ?_⟩
        rw [List.length_append, List.length_singleton]
        omega
      have digit : isHexDigit c = true := digits c (within.subset (by simp))
      have solid := (plain_of_isHexDigit digit).blank
      rw [blank c List.mem_cons_self] at solid
      contradiction

theorem unescape_blanks {blanks : Text} (blank : AllBlank blanks) : unescape blanks = .ok blanks := by
  induction blanks with
  | nil => rfl
  | cons c rest ih =>
    rw [unescape_cons (isBackslash_of_isBlank (blank c List.mem_cons_self)),
      ih fun d inside => blank d (List.mem_cons_of_mem c inside)]
    rfl

/-- Blanks behind a text that ends outside an escape are decoded as they are, if the text can be. -/
theorem toOption_unescape_append {t blanks : Text} (closed : isOpenAfter false t = false)
    (blank : AllBlank blanks) :
    (unescape (t ++ blanks)).toOption = (unescape t).toOption.map (· ++ blanks) := by
  induction t using byPieces with
  | nil =>
    rw [List.nil_append, unescape_blanks blank]
    rfl
  | @piece s l stands rest ih =>
    rw [isOpenAfter_append, stands.closed] at closed
    rw [List.append_assoc, stands.unescape, stands.unescape, toOption_map, toOption_map, ih closed,
      Option.map_map, Option.map_map]
    rfl
  | lone => contradiction
  | malformed after short =>
    have still_short : ¬ StartsWithDigits (after ++ blanks) := fun starts =>
      short (starts.of_append_blanks blank)
    rw [List.cons_append, List.cons_append, unescape_malformed short, unescape_malformed still_short]
    rfl

/-- **Escapes from both sides.** An odd number of backslashes stands before a place exactly if the scan
from the left is inside an escape there. By that scan a key ends at the first unescaped delimiter, and
what is trimmed is the longest end of a text that is made of unescaped blanks. Whether the text can be
decoded does not depend on that end, and decoding leaves the end as it is. -/
theorem scans_agree (t : Text) :
    (∀ place, trailingBackslashes (t.take place) % 2 = 1 ↔ isOpenAfter false (t.take place) = true) ∧
      (splitEntry t).1 <+: t ∧
      (∀ place, place < (splitEntry t).1.length ↔ place < t.length ∧
        ∀ earlier ≤ place, isUnescapedAt isDelimiter false t earlier = false) ∧
      ∃ blanks, t = trimValue t ++ blanks ∧
        (∀ place, (trimValue t).length ≤ place ↔
          ∀ later, place ≤ later → later < t.length → isUnescapedAt isBlank false t later = true) ∧
        (unescape t).toOption = (unescape (trimValue t)).toOption.map (· ++ blanks) := by
  have counted : ∀ place, trailingBackslashes (t.take place) % 2 = 1 ↔
      isOpenAfter false (t.take place) = true := by
    intro place
    rw [isOpenAfter_eq, decide_eq_true_eq]
  have key : (splitEntry t).1 <+: t := ⟨_, cutKey_append false t⟩
  obtain ⟨blanks, whole, blank, closed⟩ := exists_trimmed t
  refine ⟨counted, key, fun place => lt_length_cutKey_iff, blanks, whole,
    fun place => length_trimValue_le_iff, ?_⟩
  by_cases untrimmed : blanks = []
  · subst untrimmed
    rw [List.append_nil] at whole
    simp [← whole]
  · have decoded := toOption_unescape_append (closed untrimmed) blank
    rwa [← whole] at decoded

end DottedKeys.Properties
