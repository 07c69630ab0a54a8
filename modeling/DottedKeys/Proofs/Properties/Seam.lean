import DottedKeys.Proofs.Properties.Document

/-!
# Texts in two parts

Where a line feed ends a line that does not go on (`Settled`), a text can be cut in two: its logical
lines are those of the parts, and it is read into a table as the parts are, one after the other
(`readInto_append_feed`).
-/

namespace DottedKeys.Properties

/-- The last natural line of a text does not go on: it ends in an even number of backslashes, or it is
blank or a comment and continues no other line. -/
def Settled (t : Text) : Prop :=
  ∃ front last, naturalLines t = front ++ [last] ∧
    (trailingBackslashes last % 2 = 0 ∨
      gatherAll none front = none ∧ isIgnored (skipBlanks last) = true)

/-- Nothing is gathered behind a natural line that ends in an even number of backslashes or is passed
over. -/
theorem gather_eq_none_iff {pending : Option Text} {natural : Text} :
    gather pending natural = none ↔
      trailingBackslashes natural % 2 = 0 ∨
        pending = none ∧ isIgnored (skipBlanks natural) = true := by
  have goes_on : continues (skipBlanks natural) = decide (trailingBackslashes natural % 2 = 1) := by
    rw [continues_eq, isOpenAfter_skipBlanks_eq, isOpenAfter_eq]
  rw [gather, isSkipped, goes_on]
  rcases Nat.mod_two_eq_zero_or_one (trailingBackslashes natural) with even | odd
  · simp [even]
  · cases pending <;> simp [odd]

/-- No line is being continued at the end of a text exactly if its last natural line does not go on. -/
theorem settled_iff {t : Text} : Settled t ↔ gatherAll none (naturalLines t) = none := by
  constructor
  · rintro ⟨front, last, lines, ended⟩
    rw [lines, gatherAll_concat]
    exact gather_eq_none_iff.2 ended
  · intro nothing
    rcases List.eq_nil_or_concat (naturalLines t) with none_left | ⟨front, last, lines⟩
    · exact absurd none_left (naturalLinesAfter_ne_nil false t)
    · rw [List.concat_eq_append] at lines
      rw [lines, gatherAll_concat] at nothing
      exact ⟨front, last, lines, gather_eq_none_iff.1 nothing⟩

/-- At a line feed the logical lines of a text fall apart: some come out before it, and what has been
gathered there goes on to what stands behind, as it would come out itself at the end of the text. -/
theorem exists_logicalLines_append_feed {t : Text}
    (complete : t.getLast? ≠ some (CodePoint.ofChar '\r')) :
    ∃ lines, logicalLines t = lines ++ joinLines (gatherAll none (naturalLines t)) [] ∧
      ∀ u, logicalLines (t ++ ('\n' :: u : Text)) =
        lines ++ joinLines (gatherAll none (naturalLines t)) (naturalLines u) := by
  obtain ⟨lines, joined⟩ := exists_joinLines_append none (naturalLines t)
  refine ⟨lines, ?_, fun u => ?_⟩
  · have alone := joined []
    rwa [List.append_nil] at alone
  · rw [logicalLines, naturalLines_append_feed complete]
    exact joined (naturalLines u)

theorem logicalLines_append_feed {t : Text} (complete : t.getLast? ≠ some (CodePoint.ofChar '\r'))
    (settled : Settled t) (u : Text) :
    logicalLines (t ++ ('\n' :: u : Text)) = logicalLines t ++ logicalLines u := by
  obtain ⟨lines, first, whole⟩ := exists_logicalLines_append_feed complete
  rw [settled_iff.1 settled] at first whole
  rw [whole u, first, joinLines, List.append_nil]
  rfl

/-- **Reading in parts.** At a line feed that ends a line which does not go on, a text can be cut: the
logical lines of the two parts are those of the whole. Whatever table is read into, the whole stores
the same entries in the same order and ends with the same fault as the first part followed, if that
has no fault, by the second. -/
theorem readInto_append_feed {t : Text} (complete : t.getLast? ≠ some (CodePoint.ofChar '\r'))
    (settled : Settled t) (u : Text) :
    logicalLines (t ++ ('\n' :: u : Text)) = logicalLines t ++ logicalLines u ∧
      ∀ table, readInto table (t ++ ('\n' :: u : Text)) =
        match (readInto table t).fault with
        | none => readInto (readInto table t).table u
        | some _ => readInto table t := by
  have lines := logicalLines_append_feed complete settled u
  refine ⟨lines, fun table => ?_⟩
  rw [readInto, lines, readLines_append]
  rfl

/-- An entry on two lines, of which the second ends in an escaped backslash. -/
def soundPart : Text :=
  "k\\\n=1\\\\"

/-- A comment, an entry, a malformed line, and an entry that is not reached. -/
def brokenPart : Text :=
  "#\\\na=2\nb=\\u12\nc=3"

theorem readInto_append_feed_parts :
    soundPart.getLast? ≠ some (CodePoint.ofChar '\r') ∧ Settled soundPart ∧
      (read (soundPart ++ ('\n' :: brokenPart : Text))).table.entries =
        [((['k'] : Text), (['1', '\\'] : Text)), ((['a'] : Text), (['2'] : Text))] ∧
      (read (soundPart ++ ('\n' :: brokenPart : Text))).fault = some ⟨['1', '2']⟩ := by
  have complete : soundPart.getLast? ≠ some (CodePoint.ofChar '\r') := by decide +kernel
  have settled : Settled soundPart :=
    ⟨[("k\\" : Text)], "=1\\\\", by decide +kernel, .inl (by decide +kernel)⟩
  have whole := (readInto_append_feed complete settled brokenPart).2 .empty
  refine ⟨complete, settled, ?_⟩
  rw [read, whole]
  decide +kernel

end DottedKeys.Properties
