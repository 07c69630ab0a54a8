import DottedKeys.Proofs.Properties.Spelling

/-!
# Entry lines

An entry is written as a spelled key, a delimiter and a spelled value, with blanks at both ends of
the line. `EntryLine.decode` says that the key and the value come back, and `EntryLine.starts` and
`EntryLine.ends` that the line is neither passed over nor continued.
-/

namespace DottedKeys.Properties

/-- Blanks, or nothing. -/
def AllBlank (t : Text) : Prop :=
  ∀ c ∈ t, isBlank c = true

/-- What may stand between a key and its value: a separator among blanks, or, where the key is not
empty, blanks alone, or nothing at all if the value is empty. -/
inductive Delimits (key value : Text) : Text → Prop where
  | separator {before after : Text} {c : CodePoint} (left : AllBlank before)
      (mark : isSeparator c = true) (right : AllBlank after) :
      Delimits key value (before ++ c :: after)
  | blanks {t : Text} (named : key ≠ []) (blank : AllBlank t) (some_blank : t ≠ []) :
      Delimits key value t
  | nothing (named : key ≠ []) (bare : value = []) : Delimits key value []

/-- A line that spells an entry. -/
inductive EntryLine : Text × Text → Text → Prop where
  | intro {key value lead rawKey delimiter rawValue trail : Text} (left : AllBlank lead)
      (spelledKey : Spelled key rawKey) (between : Delimits key value delimiter)
      (spelledValue : Spelled value rawValue) (right : AllBlank trail) :
      EntryLine (key, value) (lead ++ (rawKey ++ (delimiter ++ (rawValue ++ trail))))

/-! ## Blanks and separators -/

theorem skipBlanks_append {blanks : Text} (blank : AllBlank blanks) (t : Text) :
    skipBlanks (blanks ++ t) = skipBlanks t :=
  List.dropWhile_append_of_pos blank

theorem skipBlanks_cons {c : CodePoint} (solid : isBlank c = false) (t : Text) :
    skipBlanks (c :: t) = c :: t := by
  simp [skipBlanks, solid]

theorem skipBlanks_eq_nil {blanks : Text} (blank : AllBlank blanks) : skipBlanks blanks = [] := by
  have all := skipBlanks_append blank []
  rwa [List.append_nil] at all

/-- A separator is no blank, opens no escape and starts no comment. -/
theorem solid_of_isSeparator {c : CodePoint} (mark : isSeparator c = true) :
    isBlank c = false ∧ isBackslash c = false ∧ isCommentMark c = false := by
  simp only [isSeparator, Bool.or_eq_true, decide_eq_true_eq] at mark
  rcases mark with rfl | rfl
  · decide
  · decide

/-- A text that starts with a delimiter, or with nothing, is all behind the key. -/
theorem cutKey_of_head {t : Text} (delimited : ∀ c ∈ t.head?, isDelimiter c = true) :
    cutKey false t = ([], t) := by
  cases t with
  | nil => rfl
  | cons c rest => simp [cutKey, delimited c rfl]

theorem isDelimiter_of_isBlank {c : CodePoint} (blank : isBlank c = true) :
    isDelimiter c = true := by
  simp [isDelimiter, blank]

/-! ## The value -/

section Value

variable {value rawValue trail : Text}

/-- Blanks in front of a spelled value are passed over and those behind it trimmed, but where the
value is empty both are one run of blanks. -/
theorem trimValue_skipBlanks (spelled : Spelled value rawValue) (right : AllBlank trail) :
    trimValue (skipBlanks (rawValue ++ trail)) = rawValue := by
  by_cases bare : value = []
  · subst bare
    rw [spelled.eq_nil, List.nil_append, skipBlanks_eq_nil right]
    rfl
  · obtain ⟨c, more, shape, solid, -, -⟩ := spelled.eq_cons bare
    have kept : skipBlanks (rawValue ++ trail) = rawValue ++ trail := by
      rw [shape, List.cons_append, skipBlanks_cons solid]
    rw [kept, trimValue_append_blanks spelled.closed right, spelled.trimValue]

/-- Behind blanks there is no separator to pass over where a spelled value follows. -/
theorem skipDelimiter_blanks {blanks : Text} (blank : AllBlank blanks)
    (spelled : Spelled value rawValue) (right : AllBlank trail) :
    skipDelimiter (blanks ++ (rawValue ++ trail)) = skipBlanks (rawValue ++ trail) := by
  rw [skipDelimiter, skipBlanks_append blank]
  by_cases bare : value = []
  · subst bare
    rw [spelled.eq_nil, List.nil_append, skipBlanks_eq_nil right]
  · obtain ⟨c, more, shape, solid, unseparated, -⟩ := spelled.eq_cons bare
    rw [shape, List.cons_append, skipBlanks_cons solid]
    simp [unseparated]

theorem skipDelimiter_separator {before after t : Text} {c : CodePoint} (left : AllBlank before)
    (mark : isSeparator c = true) (right : AllBlank after) :
    skipDelimiter (before ++ c :: (after ++ t)) = skipBlanks t := by
  have solid := (solid_of_isSeparator mark).1
  rw [skipDelimiter, skipBlanks_append left, skipBlanks_cons solid]
  simp [mark, skipBlanks_append right]

end Value

namespace Delimits

variable {key value delimiter rawValue trail : Text}

/-- The delimiter is passed over, up to blanks that trimming takes as well. -/
theorem skipDelimiter (between : Delimits key value delimiter) (spelled : Spelled value rawValue)
    (right : AllBlank trail) :
    skipDelimiter (delimiter ++ (rawValue ++ trail)) = skipBlanks (rawValue ++ trail) := by
  cases between with
  | separator left mark after =>
    rw [List.append_assoc, List.cons_append]
    exact skipDelimiter_separator left mark after
  | blanks named blank some_blank => exact skipDelimiter_blanks blank spelled right
  | nothing named bare =>
    have none_blank : AllBlank [] := by simp [AllBlank]
    exact skipDelimiter_blanks none_blank spelled right

/-- The key ends where the delimiter starts. -/
theorem cutKey (between : Delimits key value delimiter) (spelled : Spelled value rawValue)
    (right : AllBlank trail) :
    cutKey false (delimiter ++ (rawValue ++ trail)) = ([], delimiter ++ (rawValue ++ trail)) := by
  apply cutKey_of_head
  cases between with
  | @separator before after c left mark _ =>
    cases before with
    | nil => simp [isDelimiter, mark]
    | cons b before => simpa using isDelimiter_of_isBlank (left b (by simp))
  | blanks named blank some_blank =>
    cases delimiter with
    | nil => exact absurd rfl some_blank
    | cons b t => simpa using isDelimiter_of_isBlank (blank b (by simp))
  | nothing named bare =>
    subst bare
    rw [spelled.eq_nil]
    intro c first
    have inside : c ∈ trail := List.mem_of_mem_head? first
    exact isDelimiter_of_isBlank (right c inside)

/-- No escape is open behind a delimiter. -/
theorem closed (between : Delimits key value delimiter) : isOpenAfter false delimiter = false := by
  cases between with
  | separator left mark right =>
    have backslash := (solid_of_isSeparator mark).2.1
    rw [isOpenAfter_append, isOpenAfter_blanks left, isOpenAfter, backslash]
    exact isOpenAfter_blanks right
  | blanks named blank some_blank => exact isOpenAfter_blanks blank
  | nothing named bare => rfl

end Delimits

/-! ## The line -/

/-- A line without the blanks in front of it is a key, a delimiter and a value. -/
theorem EntryLine.shape {entry : Text × Text} {line : Text} (h : EntryLine entry line) :
    ∃ rawKey delimiter rawValue trail, Spelled entry.1 rawKey ∧
      Delimits entry.1 entry.2 delimiter ∧ Spelled entry.2 rawValue ∧ AllBlank trail ∧
      skipBlanks line = rawKey ++ (delimiter ++ (rawValue ++ trail)) ∧
      isIgnored (skipBlanks line) = false := by
  obtain ⟨left, spelledKey, between, spelledValue, right⟩ := h
  rename_i key value lead rawKey delimiter rawValue trail
  rw [skipBlanks_append left]
  by_cases unnamed : key = []
  · -- The blanks in front of the separator go with those at the beginning of the line.
    subst unnamed
    cases between with
    | @separator before after c blank mark later =>
      obtain ⟨solid, -, uncommented⟩ := solid_of_isSeparator mark
      have none_blank : AllBlank [] := by simp [AllBlank]
      refine ⟨[], [] ++ c :: after, rawValue, trail, .nil, .separator none_blank mark later,
        spelledValue, right, ?_⟩
      rw [spelledKey.eq_nil, List.nil_append, List.append_assoc, skipBlanks_append blank,
        List.cons_append, skipBlanks_cons solid]
      exact ⟨rfl, uncommented⟩
    | blanks named blank some_blank => exact absurd rfl named
    | nothing named bare => exact absurd rfl named
  · obtain ⟨c, more, shape, solid, -, uncommented⟩ := spelledKey.eq_cons unnamed
    refine ⟨rawKey, delimiter, rawValue, trail, spelledKey, between, spelledValue, right, ?_⟩
    rw [shape, List.cons_append, skipBlanks_cons solid]
    exact ⟨rfl, uncommented⟩

namespace EntryLine

variable {entry : Text × Text} {line : Text}

/-- The entry that a line spells is read from it. -/
theorem decode (h : EntryLine entry line) : decodeEntry (skipBlanks line) = .ok entry := by
  obtain ⟨rawKey, delimiter, rawValue, trail, spelledKey, between, spelledValue, right, line_eq, -⟩ :=
    h.shape
  have cut : splitEntry (skipBlanks line) = (rawKey, skipBlanks (rawValue ++ trail)) := by
    rw [line_eq, splitEntry, spelledKey.cutKey, between.cutKey spelledValue right]
    simp only [List.append_nil]
    rw [between.skipDelimiter spelledValue right]
  rw [decodeEntry, cut]
  simp only
  rw [trimValue_skipBlanks spelledValue right, spelledValue.unescape, spelledKey.unescape]
  rfl

/-- A line that spells an entry is neither blank nor a comment. -/
theorem starts (h : EntryLine entry line) : isIgnored (skipBlanks line) = false := by
  obtain ⟨_, _, _, _, -, -, -, -, -, kept⟩ := h.shape
  exact kept

/-- A line that spells an entry ends with it. -/
theorem ends (h : EntryLine entry line) : continues (skipBlanks line) = false := by
  obtain ⟨rawKey, delimiter, rawValue, trail, spelledKey, between, spelledValue, right, line_eq, -⟩ :=
    h.shape
  rw [continues_eq, line_eq, isOpenAfter_append, spelledKey.closed, isOpenAfter_append,
    between.closed, isOpenAfter_append, spelledValue.closed, isOpenAfter_blanks right]

end EntryLine

end DottedKeys.Properties
