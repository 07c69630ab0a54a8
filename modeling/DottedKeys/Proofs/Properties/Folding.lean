import DottedKeys.Proofs.Properties.Document

/-!
# Folded lines

A line is folded by a backslash, a line break and blanks. Where the cut stands outside an escape and
behind something that is neither blank nor a comment, the two lines that it leaves do what the one line
did, whether or not this continues another or is continued itself (`joinLines_folded`). So folding does
not change the logical lines of a text (`logicalLines_folded`).
-/

namespace DottedKeys.Properties

section Cut

variable {a b blanks : Text}

theorem skipBlanks_eq_self (solid : ∀ c ∈ b.head?, isBlank c = false) : skipBlanks b = b := by
  cases b with
  | nil => rfl
  | cons c b => exact skipBlanks_cons (solid c rfl) b

/-- Where something is left behind the blanks in front, nothing is skipped of what follows it. -/
theorem skipBlanks_append_of_ne_nil (some_left : skipBlanks a ≠ []) (b : Text) :
    skipBlanks (a ++ b) = skipBlanks a ++ b := by
  rw [skipBlanks, List.dropWhile_append, if_neg (by simpa [skipBlanks] using some_left)]
  rfl

/-- The first half of a folded line is not passed over, and neither is a line that starts with it. -/
theorem isSkipped_append (starts : isIgnored (skipBlanks a) = false) (pending : Option Text)
    (b : Text) : isSkipped pending (a ++ b) = false := by
  have kept : isIgnored (skipBlanks (a ++ b)) = false := by
    cases left : skipBlanks a with
    | nil =>
      rw [left] at starts
      contradiction
    | cons c more =>
      rw [skipBlanks_append_of_ne_nil (by simp [left]), left]
      rwa [left] at starts
  rw [isSkipped, kept, Bool.and_false]

/-- A line goes on exactly if its second half does by itself. -/
theorem continues_append (closed : isOpenAfter false a = false) (b : Text) :
    continues (skipBlanks (a ++ b)) = continues b := by
  rw [continues_eq, isOpenAfter_skipBlanks_eq, isOpenAfter_append, closed, continues_eq]

/-- What the two halves of a line add is what the line adds. -/
theorem contents_append (closed : isOpenAfter false a = false) (some_left : skipBlanks a ≠ [])
    (solid : ∀ c ∈ b.head?, isBlank c = false) :
    contents (a ++ b) = skipBlanks a ++ contents b := by
  rw [contents, continues_append closed, skipBlanks_append_of_ne_nil some_left, contents,
    skipBlanks_eq_self solid]
  split
  next goes_on =>
    have some_right : b ≠ [] := by
      rintro rfl
      contradiction
    exact List.dropLast_append_of_ne_nil some_right
  next => rfl

/-- The two lines that a folded line leaves do what the line did. -/
theorem joinLines_folded (even : trailingBackslashes a % 2 = 0)
    (starts : isIgnored (skipBlanks a) = false) (blank : AllBlank blanks)
    (solid : ∀ c ∈ b.head?, isBlank c = false) (pending : Option Text) (rest : List Text) :
    joinLines pending ((a ++ b) :: rest) =
      joinLines pending ((a ++ (['\\'] : Text)) :: (blanks ++ b) :: rest) := by
  have closed : isOpenAfter false a = false := by simp [isOpenAfter_eq, even]
  have some_left : skipBlanks a ≠ [] := by
    intro none_left
    rw [none_left] at starts
    contradiction
  -- The first line adds what stands before the cut, and goes on.
  have goes_on : continues (skipBlanks (a ++ (['\\'] : Text))) = true := by
    rw [continues_append closed]
    decide
  have front : contents (a ++ (['\\'] : Text)) = skipBlanks a := by
    rw [contents_append closed some_left (by decide)]
    exact List.append_nil _
  -- The second line adds what stands behind the cut, and goes on if the whole line does.
  have second : skipBlanks (blanks ++ b) = b := by
    rw [skipBlanks_append blank, skipBlanks_eq_self solid]
  have back : contents (blanks ++ b) = contents b := by
    rw [contents, contents, second, skipBlanks_eq_self solid]
  have whole : contents (a ++ b) = skipBlanks a ++ contents b :=
    contents_append closed some_left solid
  have none_ended : completed? pending (a ++ (['\\'] : Text)) = none := by
    simp [completed?, goes_on]
  have gathered : gather pending (a ++ (['\\'] : Text)) =
      some (pending.getD [] ++ skipBlanks a) := by
    simp [gather, isSkipped_append starts, goes_on, front]
  have ended : completed? (some (pending.getD [] ++ skipBlanks a)) (blanks ++ b) =
      completed? pending (a ++ b) := by
    simp [completed?, isSkipped_append starts, second, back, whole, continues_append closed]
  have left_over : gather (some (pending.getD [] ++ skipBlanks a)) (blanks ++ b) =
      gather pending (a ++ b) := by
    simp [gather, isSkipped_append starts, second, back, whole, continues_append closed]
  rw [joinLines_cons, joinLines_cons, none_ended, gathered, joinLines_cons, ended, left_over]
  rfl

end Cut

/-- **Folding does not change the reading.** A line may be cut behind something that is neither blank
nor a comment and does not end inside an escape, a backslash put behind the first half and blanks in
front of the second, if that starts with no blank of its own: the logical lines stay the same, whatever
lines stand before and behind. -/
theorem logicalLines_folded {before after : List Text} {a b blanks : Text}
    (unbroken : ∀ line ∈ before ++ a :: b :: after, ∀ c ∈ line, isLineBreak c = false)
    (even : trailingBackslashes a % 2 = 0) (starts : isIgnored (skipBlanks a) = false)
    (blank : AllBlank blanks) (solid : ∀ c ∈ b.head?, isBlank c = false) :
    logicalLines (ofLines (before ++ [a ++ b] ++ after)) =
      logicalLines (ofLines (before ++ [a ++ (['\\'] : Text), blanks ++ b] ++ after)) := by
  simp only [List.forall_mem_append, List.forall_mem_cons] at unbroken
  obtain ⟨earlier, first, second, later⟩ := unbroken
  have whole : naturalLines (ofLines (before ++ [a ++ b] ++ after)) = before ++ [a ++ b] ++ after := by
    refine naturalLines_ofLines (by simp) ?_
    simp only [List.forall_mem_append, List.forall_mem_cons]
    exact ⟨⟨earlier, ⟨first, second⟩, by simp⟩, later⟩
  have halves : naturalLines (ofLines (before ++ [a ++ (['\\'] : Text), blanks ++ b] ++ after)) =
      before ++ [a ++ (['\\'] : Text), blanks ++ b] ++ after := by
    refine naturalLines_ofLines (by simp) ?_
    simp only [List.forall_mem_append, List.forall_mem_cons]
    exact ⟨⟨earlier, ⟨first, by decide, by simp⟩, ⟨blank.unbroken, second⟩, by simp⟩, later⟩
  obtain ⟨lines, joined⟩ := exists_joinLines_append none before
  have same := joinLines_folded even starts blank solid (gatherAll none before) after
  rw [logicalLines, whole, logicalLines, halves, List.append_assoc, List.append_assoc, joined, joined]
  exact congrArg (lines ++ ·) same

/-- A line that continues another and is continued itself, cut inside its run of three backslashes. -/
theorem logicalLines_folded_run :
    (∀ line ∈ [("x\\" : Text)] ++ (" k=1\\\\" : Text) :: ("\\" : Text) :: [(" z" : Text)],
        ∀ c ∈ line, isLineBreak c = false) ∧
      trailingBackslashes " k=1\\\\" % 2 = 0 ∧ isIgnored (skipBlanks " k=1\\\\") = false ∧
      AllBlank "\t " ∧ (∀ c ∈ ("\\" : Text).head?, isBlank c = false) ∧
      logicalLines (ofLines ([("x\\" : Text)] ++
        [(" k=1\\\\" : Text) ++ (['\\'] : Text), ("\t " : Text) ++ ("\\" : Text)] ++ [(" z" : Text)])) =
          [("xk=1\\\\z" : Text)] := by
  have unbroken : ∀ line ∈ [("x\\" : Text)] ++ (" k=1\\\\" : Text) :: ("\\" : Text) :: [(" z" : Text)],
      ∀ c ∈ line, isLineBreak c = false := by decide +kernel
  have even : trailingBackslashes " k=1\\\\" % 2 = 0 := by decide +kernel
  have starts : isIgnored (skipBlanks " k=1\\\\") = false := by decide +kernel
  have blank : AllBlank "\t " := by
    unfold AllBlank
    decide +kernel
  have solid : ∀ c ∈ ("\\" : Text).head?, isBlank c = false := by decide +kernel
  have same := logicalLines_folded unbroken even starts blank solid
  exact ⟨unbroken, even, starts, blank, solid, same.symm.trans (by decide +kernel)⟩

end DottedKeys.Properties
