import DottedKeys.Proofs.Properties.Spelling

/-!
# Natural lines

No natural line holds a line break (`unbroken_of_mem_naturalLines`). At a line feed that no carriage
return stands before, a text falls into two whose natural lines are its own
(`naturalLines_append_feed`); so lines that are put together with line feeds are read as these lines
(`naturalLines_ofLines`).
-/

namespace DottedKeys.Properties

/-- Lines with a line feed between each two. -/
def ofLines (lines : List Text) : Text :=
  List.intercalate ['\n'] lines

theorem naturalLinesAfter_ne_nil (afterReturn : Bool) (t : Text) :
    naturalLinesAfter afterReturn t ≠ [] := by
  induction t generalizing afterReturn with
  | nil => simp [naturalLinesAfter]
  | cons c rest ih =>
    rw [naturalLinesAfter]
    split
    · simp
    · split
      · split
        · exact ih false
        · simp
      · exact Text.consFirst_ne_nil c _

/-- What ends a natural line does not belong to it. -/
theorem unbroken_of_mem_naturalLinesAfter {afterReturn : Bool} {t line : Text}
    (member : line ∈ naturalLinesAfter afterReturn t) : ∀ c ∈ line, isLineBreak c = false := by
  induction t generalizing afterReturn line with
  | nil =>
    obtain rfl : line = [] := by simpa [naturalLinesAfter] using member
    simp
  | cons c rest ih =>
    rw [naturalLinesAfter] at member
    split at member
    next =>
      rcases List.mem_cons.1 member with rfl | member
      · simp
      · exact ih member
    next other =>
      split at member
      next =>
        split at member
        · exact ih member
        · rcases List.mem_cons.1 member with rfl | member
          · simp
          · exact ih member
      next another =>
        have solid : isLineBreak c = false := by simp [isLineBreak, other, another]
        rcases Text.mem_consFirst member with rfl | inside | ⟨tail, inside, rfl⟩
        · simpa using solid
        · exact ih inside
        · simpa [solid] using ih inside

theorem unbroken_of_mem_naturalLines {t line : Text} (member : line ∈ naturalLines t) :
    ∀ c ∈ line, isLineBreak c = false :=
  unbroken_of_mem_naturalLinesAfter member

/-- A text without breaks stays in front of the first natural line of what follows it. -/
theorem naturalLines_append {line t first : Text} {others : List Text}
    (unbroken : ∀ c ∈ line, isLineBreak c = false) (below : naturalLines t = first :: others) :
    naturalLines (line ++ t) = (line ++ first) :: others := by
  induction line with
  | nil => exact below
  | cons c line ih =>
    have more := ih fun d inside => unbroken d (List.mem_cons_of_mem _ inside)
    have solid := unbroken c List.mem_cons_self
    simp only [isLineBreak, Bool.or_eq_false_iff, decide_eq_false_iff_not] at solid
    rw [naturalLines] at more
    rw [List.cons_append, naturalLines, naturalLinesAfter, if_neg solid.1, if_neg solid.2, more]
    rfl

/-- A line without an end is all of a text. -/
theorem naturalLines_last {line : Text} (unbroken : ∀ c ∈ line, isLineBreak c = false) :
    naturalLines line = [line] := by
  simpa using naturalLines_append unbroken (show naturalLines [] = [[]] from rfl)

/-! ## Line feeds -/

theorem naturalLinesAfter_append_feed {afterReturn : Bool} {t : Text}
    (complete : t.getLast? ≠ some (CodePoint.ofChar '\r')) (begun : t = [] → afterReturn = false)
    (u : Text) :
    naturalLinesAfter afterReturn (t ++ ('\n' :: u : Text)) =
      naturalLinesAfter afterReturn t ++ naturalLines u := by
  induction t generalizing afterReturn with
  | nil =>
    rw [begun rfl]
    rfl
  | cons c rest ih =>
    have later : rest.getLast? ≠ some (CodePoint.ofChar '\r') := by
      cases rest with
      | nil => simp
      | cons d rest => rwa [List.getLast?_cons_cons] at complete
    rw [List.cons_append, naturalLinesAfter, naturalLinesAfter]
    split
    next return_ =>
      have more : rest = [] → true = false := by
        rintro rfl
        simp [return_] at complete
      rw [ih later more]
      rfl
    next =>
      split
      next =>
        rw [ih later fun _ => rfl]
        split
        · rfl
        · rfl
      next =>
        rw [ih later fun _ => rfl, Text.consFirst_append c (naturalLinesAfter_ne_nil false rest)]

/-- A line feed ends a line, unless it belongs to a carriage return. -/
theorem naturalLines_append_feed {t : Text} (complete : t.getLast? ≠ some (CodePoint.ofChar '\r'))
    (u : Text) : naturalLines (t ++ ('\n' :: u : Text)) = naturalLines t ++ naturalLines u :=
  naturalLinesAfter_append_feed complete (fun _ => rfl) u

/-- Lines without breaks are the natural lines of their text. -/
theorem naturalLines_ofLines {lines : List Text} (some_line : lines ≠ [])
    (unbroken : ∀ line ∈ lines, ∀ c ∈ line, isLineBreak c = false) :
    naturalLines (ofLines lines) = lines := by
  induction lines with
  | nil => exact absurd rfl some_line
  | cons line rest ih =>
    have here := unbroken line List.mem_cons_self
    cases rest with
    | nil => simpa [ofLines] using naturalLines_last here
    | cons second rest =>
      have complete : line.getLast? ≠ some (CodePoint.ofChar '\r') := by
        intro last
        have broken := here _ (List.mem_of_getLast? last)
        contradiction
      have below := ih (by simp) fun other member => unbroken other (List.mem_cons_of_mem line member)
      have whole : ofLines (line :: second :: rest) = line ++ ('\n' :: ofLines (second :: rest) : Text) := by
        simp [ofLines]
      rw [whole, naturalLines_append_feed complete, naturalLines_last here, below]
      rfl

end DottedKeys.Properties
