import DottedKeys.Properties.Line
import Mathlib.Data.List.Induction

/-!
# Joining line by line

Natural lines are joined one at a time. Between two of them stands what has been gathered of a line
that is being continued, if one is (`gather`); and if a logical line ends with a natural line, it comes
out there (`completed?`). `joinLines_cons` says that this is all that joining does. From one step it
follows which logical lines there are (`mem_joinLines_iff`), what holds of each of them
(`holds_of_mem_joinLines`), and that lines may be joined in two parts (`exists_joinLines_append`).
-/

namespace DottedKeys.Properties

/-- What a natural line adds to its logical line: all but the blanks in front and the backslash that
continues it. -/
def contents (natural : Text) : Text :=
  if continues (skipBlanks natural) then (skipBlanks natural).dropLast else skipBlanks natural

/-- Whether a natural line is passed over. -/
def isSkipped (pending : Option Text) (natural : Text) : Bool :=
  pending.isNone && isIgnored (skipBlanks natural)

/-- Nothing is passed over where a line is being continued. -/
@[simp] theorem isSkipped_some (gathered natural : Text) :
    isSkipped (some gathered) natural = false :=
  rfl

/-- What has been gathered of a continued line behind one more natural line. -/
def gather (pending : Option Text) (natural : Text) : Option Text :=
  if !isSkipped pending natural && continues (skipBlanks natural) then
    some (pending.getD [] ++ contents natural)
  else none

/-- The logical line that ends with a natural line, if one does. -/
def completed? (pending : Option Text) (natural : Text) : Option Text :=
  if isSkipped pending natural || continues (skipBlanks natural) then none
  else some (pending.getD [] ++ contents natural)

section Step

variable {pending : Option Text} {natural line : Text}

/-- A line is being continued exactly behind a natural line that goes on and is not passed over. -/
theorem gather_eq_some_iff :
    gather pending natural = some line ↔ isSkipped pending natural = false ∧
      continues (skipBlanks natural) = true ∧ pending.getD [] ++ contents natural = line := by
  cases skipped : isSkipped pending natural <;>
    cases goes_on : continues (skipBlanks natural) <;> simp [gather, skipped, goes_on]

/-- A line ends exactly with a natural line that does not go on and is not passed over. -/
theorem completed?_eq_some_iff :
    completed? pending natural = some line ↔ isSkipped pending natural = false ∧
      continues (skipBlanks natural) = false ∧ pending.getD [] ++ contents natural = line := by
  cases skipped : isSkipped pending natural <;>
    cases goes_on : continues (skipBlanks natural) <;> simp [completed?, skipped, goes_on]

end Step

/-- What has been gathered behind natural lines. -/
def gatherAll (pending : Option Text) (natural : List Text) : Option Text :=
  natural.foldl gather pending

theorem gatherAll_concat (pending : Option Text) (natural : List Text) (last : Text) :
    gatherAll pending (natural ++ [last]) = gather (gatherAll pending natural) last := by
  simp [gatherAll, List.foldl_append]

/-- Lines are joined one step at a time. -/
theorem joinLines_cons (pending : Option Text) (natural : Text) (rest : List Text) :
    joinLines pending (natural :: rest) =
      (completed? pending natural).toList ++ joinLines (gather pending natural) rest := by
  cases pending with
  | none =>
    cases ignored : isIgnored (skipBlanks natural) <;>
      cases goes_on : continues (skipBlanks natural) <;>
        simp [joinLines, completed?, gather, isSkipped, contents, ignored, goes_on]
  | some gathered =>
    cases goes_on : continues (skipBlanks natural) <;>
      simp [joinLines, completed?, gather, isSkipped, contents, goes_on]

/-- Lines in two parts: what comes out of the first does not depend on the second, which is joined to
what has been gathered. -/
theorem exists_joinLines_append (pending : Option Text) (first : List Text) :
    ∃ lines, ∀ second, joinLines pending (first ++ second) =
      lines ++ joinLines (gatherAll pending first) second := by
  induction first generalizing pending with
  | nil => exact ⟨[], fun second => rfl⟩
  | cons natural rest ih =>
    obtain ⟨lines, joined⟩ := ih (gather pending natural)
    refine ⟨(completed? pending natural).toList ++ lines, fun second => ?_⟩
    rw [List.cons_append, joinLines_cons, joined, List.append_assoc]
    rfl

/-- A logical line ends with one of the natural lines, or it is what is left at the end. -/
theorem mem_joinLines_iff {pending : Option Text} {natural : List Text} {line : Text} :
    line ∈ joinLines pending natural ↔
      (∃ front last rest, natural = front ++ last :: rest ∧
        completed? (gatherAll pending front) last = some line) ∨
      (gatherAll pending natural = some line ∧ line ≠ []) := by
  induction natural generalizing pending with
  | nil =>
    cases pending with
    | none => simp [joinLines, gatherAll]
    | some gathered =>
      cases gathered with
      | nil => simp [joinLines, gatherAll]
      | cons c gathered => simp +contextual [joinLines, gatherAll, eq_comm, iff_def]
  | cons first natural ih =>
    rw [joinLines_cons, List.mem_append, ih, Option.mem_toList]
    constructor
    · rintro (here | ⟨front, last, rest, rfl, later⟩ | left)
      · exact .inl ⟨[], first, natural, rfl, here⟩
      · exact .inl ⟨first :: front, last, rest, rfl, later⟩
      · exact .inr left
    · rintro (⟨_ | ⟨_, front⟩, last, rest, whole, ended⟩ | left)
      · obtain ⟨rfl, rfl⟩ := List.cons.inj whole
        exact .inl ended
      · obtain ⟨rfl, rfl⟩ := List.cons.inj whole
        exact .inr (.inl ⟨front, last, rest, rfl, ended⟩)
      · exact .inr (.inr left)

/-- What holds of nothing, and goes on to hold when a natural line is added, holds of what has been
gathered. -/
theorem holds_of_gatherAll (Holds : Text → Prop) {natural : List Text} (nothing : Holds [])
    (more : ∀ front, Holds front → ∀ next ∈ natural, Holds (front ++ contents next)) :
    Holds ((gatherAll none natural).getD []) := by
  induction natural using List.reverseRecOn with
  | nil => exact nothing
  | append_singleton natural last ih =>
    have before := ih fun front holds next member => more front holds next (by simp [member])
    rw [gatherAll_concat]
    cases gathered : gather (gatherAll none natural) last with
    | none => exact nothing
    | some line =>
      obtain ⟨-, -, rfl⟩ := gather_eq_some_iff.1 gathered
      exact more _ before last (by simp)

/-- What holds of nothing, and goes on to hold when a natural line is added, holds of every logical
line. -/
theorem holds_of_mem_joinLines (Holds : Text → Prop) {natural : List Text} {line : Text}
    (nothing : Holds [])
    (more : ∀ front, Holds front → ∀ next ∈ natural, Holds (front ++ contents next))
    (member : line ∈ joinLines none natural) : Holds line := by
  rcases mem_joinLines_iff.1 member with ⟨front, last, rest, rfl, ended⟩ | ⟨left, -⟩
  · have before : Holds ((gatherAll none front).getD []) :=
      holds_of_gatherAll Holds nothing fun text holds next member =>
        more text holds next (by simp [member])
    obtain ⟨-, -, rfl⟩ := completed?_eq_some_iff.1 ended
    exact more _ before last (by simp)
  · have gathered := holds_of_gatherAll Holds nothing more
    rwa [left] at gathered

end DottedKeys.Properties
