import DottedKeys.Proofs.Properties.Decoding
import DottedKeys.Proofs.Properties.Document
import Mathlib.Data.List.Forall2

/-!
# Reading up to a malformed line

A line is malformed if its key or its value holds a malformed escape, and these are the lines that
have no entry (`exists_decodeEntry_eq_error_iff`). Reading stores the entries of the lines before the
first malformed one, and of this line nothing (`exists_readLines_eq`); `exists_keys_read_eq` says
which keys are in the table then.
-/

namespace DottedKeys.Properties

/-- The key or the value of a line holds a malformed escape. -/
def MalformedLine (line : Text) : Prop :=
  HoldsMalformed (splitEntry line).1 ∨ HoldsMalformed (trimValue (splitEntry line).2)

/-- What keeps a line from being decoded. -/
def fault? (line : Text) : Option Malformed :=
  match decodeEntry line with
  | .ok _ => none
  | .error fault => some fault

section Line

variable {line : Text}

/-- The value of a line is decoded first, then its key. -/
theorem decodeEntry_eq_bind (line : Text) :
    decodeEntry line =
      (unescape (trimValue (splitEntry line).2)).bind fun value =>
        (unescape (splitEntry line).1).bind fun key => .ok (key, value) :=
  rfl

theorem unescape_key {entry : Text × Text} (decoded : decodeEntry line = .ok entry) :
    unescape (splitEntry line).1 = .ok entry.1 := by
  rw [decodeEntry_eq_bind] at decoded
  cases value : unescape (trimValue (splitEntry line).2) with
  | error fault => simp [value, Except.bind] at decoded
  | ok t =>
    cases key : unescape (splitEntry line).1 with
    | error fault => simp [value, key, Except.bind] at decoded
    | ok s =>
      obtain rfl : (s, t) = entry := by simpa [value, key, Except.bind] using decoded
      rfl

/-- A line has no entry exactly if it is malformed. -/
theorem exists_decodeEntry_eq_error_iff (line : Text) :
    (∃ fault, decodeEntry line = .error fault) ↔ MalformedLine line := by
  rw [MalformedLine, ← exists_unescape_eq_error_iff, ← exists_unescape_eq_error_iff,
    decodeEntry_eq_bind]
  cases unescape (splitEntry line).1 <;> cases unescape (trimValue (splitEntry line).2) <;>
    simp [Except.bind]

instance (line : Text) : Decidable (MalformedLine line) :=
  decidable_of_iff ((fault? line).isSome = true) <| by
    rw [← exists_decodeEntry_eq_error_iff, fault?]
    cases decodeEntry line <;> simp

theorem not_malformedLine_of_ok {entry : Text × Text} (decoded : decodeEntry line = .ok entry) :
    ¬ MalformedLine line := by
  rw [← exists_decodeEntry_eq_error_iff, decoded]
  simp

theorem malformedLine_of_error {fault : Malformed} (failed : decodeEntry line = .error fault) :
    MalformedLine line :=
  (exists_decodeEntry_eq_error_iff line).1 ⟨fault, failed⟩

end Line

/-- What is read of lines are the entries before the first malformed line, and the fault is that of
this line. -/
theorem exists_readLines_eq (table : Table) (lines : List Text) :
    ∃ entries, List.Forall₂ (fun line entry => decodeEntry line = .ok entry)
        (lines.takeWhile (¬ MalformedLine ·)) entries ∧
      readLines table lines =
        ⟨table.putAll entries, (lines.find? (MalformedLine ·)).bind fault?⟩ := by
  induction lines generalizing table with
  | nil => exact ⟨[], .nil, rfl⟩
  | cons line rest ih =>
    cases decoded : decodeEntry line with
    | ok entry =>
      have sound := not_malformedLine_of_ok decoded
      obtain ⟨entries, before, read⟩ := ih (table.put entry.1 entry.2)
      refine ⟨entry :: entries, ?_, ?_⟩
      · rw [List.takeWhile_cons_of_pos (by simpa using sound)]
        exact .cons decoded before
      · rw [readLines, decoded, List.find?_cons_of_neg (by simpa using sound)]
        exact read
    | error fault =>
      have bad := malformedLine_of_error decoded
      refine ⟨[], ?_, ?_⟩
      · rw [List.takeWhile_cons_of_neg (by simpa using bad)]
        exact .nil
      · rw [readLines, decoded, List.find?_cons_of_pos (by simpa using bad), Option.bind_some, fault?,
          decoded]
        rfl

/-- The keys of what is read are those of the entries before the first malformed line. -/
theorem exists_keys_read_eq (text : Text) :
    ∃ keys, List.Forall₂ (fun line key => unescape (splitEntry line).1 = .ok key)
        ((logicalLines text).takeWhile (¬ MalformedLine ·)) keys ∧
      (read text).table.keys = keys.eraseDups ∧
      (read text).fault = ((logicalLines text).find? (MalformedLine ·)).bind fault? := by
  obtain ⟨entries, decoded, whole⟩ := exists_readLines_eq .empty (logicalLines text)
  have same : read text = readLines .empty (logicalLines text) := rfl
  refine ⟨entries.map Prod.fst, ?_, ?_, ?_⟩
  · rw [List.forall₂_map_right_iff]
    exact decoded.imp fun _ _ => unescape_key
  · rw [same, whole, Table.keys_putAll]
  · rw [same, whole]

end DottedKeys.Properties
