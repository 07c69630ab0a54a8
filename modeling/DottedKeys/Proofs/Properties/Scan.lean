import DottedKeys.Properties.Entry
import DottedKeys.Proofs.Properties.Joining

/-!
# Escapes from left to right

Read from the left, a backslash outside an escape opens one, and whatever follows closes it. The
continuation of a line and the trimming of a value count backslashes from the right instead.
`isOpenAfter_eq` says that both find the same escapes. So no logical line ends inside one
(`even_of_mem_logicalLines`), and the laws of `trimValue` along `++` follow.
-/

namespace DottedKeys.Properties

/-- Whether an escape is open behind a text, where `escaped` says so of the place before it. -/
def isOpenAfter : (escaped : Bool) → Text → Bool
  | escaped, [] => escaped
  | escaped, c :: rest => isOpenAfter (!escaped && isBackslash c) rest

theorem isOpenAfter_append (escaped : Bool) (s t : Text) :
    isOpenAfter escaped (s ++ t) = isOpenAfter (isOpenAfter escaped s) t := by
  induction s generalizing escaped with
  | nil => rfl
  | cons c rest ih => exact ih _

theorem trailingBackslashes_concat (t : Text) (c : CodePoint) :
    trailingBackslashes (t ++ [c]) = if isBackslash c then trailingBackslashes t + 1 else 0 := by
  rw [trailingBackslashes, List.reverse_concat, List.takeWhile_cons]
  split
  · rfl
  · rfl

/-- An escape is open behind a text exactly if the text ends in an odd number of backslashes. -/
theorem isOpenAfter_eq (t : Text) :
    isOpenAfter false t = decide (trailingBackslashes t % 2 = 1) := by
  induction t using List.reverseRecOn with
  | nil => rfl
  | append_singleton t c ih =>
    rw [isOpenAfter_append, ih, trailingBackslashes_concat]
    cases backslash : isBackslash c with
    | false => simp [isOpenAfter, backslash]
    | true =>
      rcases Nat.mod_two_eq_zero_or_one (trailingBackslashes t) with even | odd
      · have next : (trailingBackslashes t + 1) % 2 = 1 := by omega
        simp [isOpenAfter, backslash, even, next]
      · have next : (trailingBackslashes t + 1) % 2 = 0 := by omega
        simp [isOpenAfter, backslash, odd, next]

/-- A line goes on exactly if it ends inside an escape. -/
theorem continues_eq (line : Text) : continues line = isOpenAfter false line :=
  (isOpenAfter_eq line).symm

/-- A line that goes on ends outside an escape without its last backslash. -/
theorem isOpenAfter_dropLast {line : Text} (continued : continues line = true) :
    isOpenAfter false line.dropLast = false := by
  rw [continues_eq] at continued
  rcases List.eq_nil_or_concat line with rfl | ⟨front, c, rfl⟩
  · rfl
  · rw [List.concat_eq_append] at continued ⊢
    rw [isOpenAfter_append, isOpenAfter, isOpenAfter, Bool.and_eq_true, Bool.not_eq_true'] at continued
    rw [List.dropLast_concat]
    exact continued.1

/-- What a natural line adds to its logical line ends outside an escape. -/
theorem isOpenAfter_contents (natural : Text) : isOpenAfter false (contents natural) = false := by
  rw [contents]
  split
  next continued => exact isOpenAfter_dropLast continued
  next ended => rwa [continues_eq, Bool.not_eq_true] at ended

/-- A logical line ends outside an escape. -/
theorem isOpenAfter_of_mem_logicalLines {t line : Text} (member : line ∈ logicalLines t) :
    isOpenAfter false line = false := by
  refine holds_of_mem_joinLines (isOpenAfter false · = false) rfl ?_ member
  intro front closed next _
  rw [isOpenAfter_append, closed, isOpenAfter_contents]

/-- A logical line ends in an even number of backslashes. -/
theorem even_of_mem_logicalLines {t line : Text} (member : line ∈ logicalLines t) :
    trailingBackslashes line % 2 = 0 := by
  have closed := isOpenAfter_of_mem_logicalLines member
  rw [isOpenAfter_eq, decide_eq_false_iff_not] at closed
  omega

theorem isBackslash_of_isBlank {c : CodePoint} (blank : isBlank c = true) :
    isBackslash c = false := by
  simp only [isBlank, Bool.or_eq_true, decide_eq_true_eq] at blank
  rcases blank with (rfl | rfl) | rfl <;> rfl

/-- Blanks close no escape that was not open, and open none. -/
theorem isOpenAfter_blanks {t : Text} (blank : ∀ c ∈ t, isBlank c = true) :
    isOpenAfter false t = false := by
  induction t with
  | nil => rfl
  | cons c rest ih =>
    have plain := isBackslash_of_isBlank (blank c List.mem_cons_self)
    rw [isOpenAfter, plain]
    exact ih fun d inside => blank d (List.mem_cons_of_mem _ inside)

/-- The blanks in front of a text neither open an escape nor close one. -/
theorem isOpenAfter_skipBlanks_eq (t : Text) :
    isOpenAfter false (skipBlanks t) = isOpenAfter false t := by
  induction t with
  | nil => rfl
  | cons c rest ih =>
    rw [skipBlanks, List.dropWhile_cons]
    split
    next blank =>
      rw [isOpenAfter, isBackslash_of_isBlank blank]
      exact ih
    next => rfl

/-- Trimming takes away the last code point if that is a blank outside an escape. -/
theorem trimValue_concat (t : Text) (c : CodePoint) :
    trimValue (t ++ [c]) =
      if isBlank c && !isOpenAfter false t then trimValue t else t ++ [c] := by
  have count : (t.reverse.takeWhile isBackslash).length = trailingBackslashes t := rfl
  rw [trimValue, List.reverse_concat, dropUnescapedBlanks, count, isOpenAfter_eq]
  cases isBlank c with
  | false => simp
  | true =>
    rcases Nat.mod_two_eq_zero_or_one (trailingBackslashes t) with even | odd
    · simp [even, trimValue]
    · simp [odd]

/-- What stands before a text matters to its trimming only where nothing of the text is left. -/
theorem trimValue_append {s : Text} (closed : isOpenAfter false s = false) (t : Text) :
    trimValue (s ++ t) = if (trimValue t).isEmpty then trimValue s else s ++ trimValue t := by
  induction t using List.reverseRecOn with
  | nil => simp [trimValue, dropUnescapedBlanks]
  | append_singleton t c ih =>
    rw [← List.append_assoc, trimValue_concat, trimValue_concat, isOpenAfter_append, closed]
    split
    · exact ih
    · simp

/-- Blanks at the end are trimmed, whatever stands before them outside an escape. -/
theorem trimValue_append_blanks {s t : Text} (closed : isOpenAfter false s = false)
    (blank : ∀ c ∈ t, isBlank c = true) : trimValue (s ++ t) = trimValue s := by
  have nothing : trimValue t = [] := by
    induction t using List.reverseRecOn with
    | nil => rfl
    | append_singleton t c ih =>
      have before : ∀ d ∈ t, isBlank d = true := fun d inside => blank d (by simp [inside])
      rw [trimValue_concat, blank c (by simp), isOpenAfter_blanks before]
      exact ih before
  simp [trimValue_append closed, nothing]

end DottedKeys.Properties
