import DottedKeys.Properties.Reading
import DottedKeys.Proofs.FirstSeen
import DottedKeys.Proofs.Properties.Entry
import DottedKeys.Proofs.Properties.NaturalLine

/-!
# Documents

A document is a list of lines, each of which spells an entry or is passed over, and each of which
but the last has to have an end. `readInto_document` reads it line by line, and
`complete_read_document` says what comes out: the pairs as stored one after the other. Blanks alone
part fewer keys from their values than a separator does; `delimits_of_blank` says that none other
could be read.
-/

namespace DottedKeys.Properties

/-! ## Storing pairs -/

namespace Table

theorem putAll_concat (t : Table) (pairs : List (Text × Text)) (pair : Text × Text) :
    t.putAll (pairs ++ [pair]) = (t.putAll pairs).put pair.1 pair.2 := by
  simp [putAll, List.foldl_append]

theorem putAll_append (t : Table) (pairs more : List (Text × Text)) :
    t.putAll (pairs ++ more) = (t.putAll pairs).putAll more := by
  simp [putAll, List.foldl_append]

/-- The keys of stored pairs stand in the order in which they were first stored. -/
theorem keys_putAll (pairs : List (Text × Text)) :
    (empty.putAll pairs).keys = (pairs.map Prod.fst).eraseDups := by
  induction pairs using List.reverseRecOn with
  | nil => rfl
  | append_singleton pairs pair ih =>
    rw [putAll_concat, keys_put, ih, List.map_append, List.map_singleton]
    by_cases known : pair.1 ∈ pairs.map Prod.fst
    · rw [if_pos (List.mem_eraseDups.2 known), FirstSeen.eraseDups_concat_of_mem known]
    · rw [if_neg (mt List.mem_eraseDups.1 known), FirstSeen.eraseDups_concat_of_not_mem known]

/-- The value of a key is the last that was stored under it. -/
theorem get?_putAll (pairs : List (Text × Text)) (key : Text) :
    (empty.putAll pairs).get? key = pairs.reverse.lookup key := by
  induction pairs using List.reverseRecOn with
  | nil => rfl
  | append_singleton pairs pair ih =>
    rw [putAll_concat, get?_put, ih, List.reverse_concat, List.lookup_cons]
    by_cases same : key = pair.1
    · simp [same]
    · simp [same, beq_eq_false_iff_ne.2 same]

end Table

/-! ## Lines and documents -/

/-- The three ends of a line. -/
def lineEnds : List Text :=
  [['\n'], ['\r'], ['\r', '\n']]

/-- A line with the entries that it spells: one, or none if it is blank or a comment. -/
inductive Line : List (Text × Text) → Text → Prop where
  | blank {line : Text} (blank : AllBlank line) : Line [] line
  | comment {lead note : Text} {mark : CodePoint} (left : AllBlank lead)
      (marked : isCommentMark mark = true) (unbroken : ∀ c ∈ note, isLineBreak c = false) :
      Line [] (lead ++ mark :: note)
  | entry {pair : Text × Text} {line : Text} (spelled : EntryLine pair line) :
      Line [pair] line

/-- A document with the entries that its lines spell. The last line has no end; it may be blank. -/
inductive Document : List (Text × Text) → Text → Prop where
  | last {pairs : List (Text × Text)} {line : Text} (spelled : Line pairs line) :
      Document pairs line
  | cons {pairs more : List (Text × Text)} {line ending rest : Text}
      (spelled : Line pairs line) (ended : ending ∈ lineEnds)
      (below : Document more rest) :
      Document (pairs ++ more) (line ++ (ending ++ rest))

/-! ## Natural lines -/

/-- A line feed that belongs to a carriage return is passed over, as a blank line would be. -/
theorem joinLines_naturalLinesAfter (afterReturn : Bool) (t : Text) :
    joinLines none (naturalLinesAfter afterReturn t) = logicalLines t := by
  rw [logicalLines, naturalLines]
  cases afterReturn with
  | false => rfl
  | true =>
    cases t with
    | nil => rfl
    | cons c rest =>
      rw [naturalLinesAfter, naturalLinesAfter]
      by_cases feed : c = '\n'
      · subst feed
        have other : ¬ ((CodePoint.ofChar '\n') = '\r') := by decide
        rw [if_neg other, if_neg other]
        rfl
      · rw [if_neg feed, if_neg feed]

/-- A line with an end is the first natural line of a text. -/
theorem naturalLines_ended {line ending : Text} (unbroken : ∀ c ∈ line, isLineBreak c = false)
    (ended : ending ∈ lineEnds) (rest : Text) :
    ∃ afterReturn, naturalLines (line ++ (ending ++ rest)) =
      line :: naturalLinesAfter afterReturn rest := by
  have below : ∃ afterReturn, naturalLines (ending ++ rest) =
      [] :: naturalLinesAfter afterReturn rest := by
    simp only [lineEnds, List.mem_cons, List.not_mem_nil, or_false] at ended
    rcases ended with rfl | rfl | rfl
    · exact ⟨false, rfl⟩
    · exact ⟨true, rfl⟩
    · exact ⟨false, rfl⟩
  obtain ⟨afterReturn, below⟩ := below
  refine ⟨afterReturn, ?_⟩
  simpa using naturalLines_append unbroken below

/-! ## Reading -/

theorem isLineBreak_of_isBlank {c : CodePoint} (blank : isBlank c = true) :
    isLineBreak c = false := by
  simp only [isBlank, Bool.or_eq_true, decide_eq_true_eq] at blank
  rcases blank with (rfl | rfl) | rfl
  · decide
  · decide
  · decide

theorem AllBlank.unbroken {t : Text} (blank : AllBlank t) : ∀ c ∈ t, isLineBreak c = false :=
  fun c inside => isLineBreak_of_isBlank (blank c inside)

/-- A comment mark is no blank and no break. -/
theorem solid_of_isCommentMark {c : CodePoint} (marked : isCommentMark c = true) :
    isBlank c = false ∧ isLineBreak c = false := by
  simp only [isCommentMark, Bool.or_eq_true, decide_eq_true_eq] at marked
  rcases marked with rfl | rfl
  · decide
  · decide

theorem Delimits.unbroken {key value delimiter : Text} (between : Delimits key value delimiter) :
    ∀ c ∈ delimiter, isLineBreak c = false := by
  cases between with
  | @separator before after c left mark right =>
    have solid : isLineBreak c = false := by
      simp only [isSeparator, Bool.or_eq_true, decide_eq_true_eq] at mark
      rcases mark with rfl | rfl
      · decide
      · decide
    intro d inside
    rcases List.mem_append.1 inside with inside | inside
    · exact left.unbroken d inside
    · rcases List.mem_cons.1 inside with rfl | inside
      · exact solid
      · exact right.unbroken d inside
  | blanks named blank some_blank => exact blank.unbroken
  | nothing named bare => simp

theorem EntryLine.unbroken {entry : Text × Text} {line : Text}
    (h : EntryLine entry line) : ∀ c ∈ line, isLineBreak c = false := by
  obtain ⟨left, spelledKey, between, spelledValue, right⟩ := h
  intro c inside
  simp only [List.mem_append] at inside
  rcases inside with inside | inside | inside | inside | inside
  · exact left.unbroken c inside
  · exact spelledKey.not_isLineBreak c inside
  · exact between.unbroken c inside
  · exact spelledValue.not_isLineBreak c inside
  · exact right.unbroken c inside

namespace Line

variable {pairs : List (Text × Text)} {line : Text}

theorem unbroken (h : Line pairs line) : ∀ c ∈ line, isLineBreak c = false := by
  cases h with
  | blank blank => exact blank.unbroken
  | comment left marked unbroken =>
    intro c inside
    rcases List.mem_append.1 inside with inside | inside
    · exact left.unbroken c inside
    · rcases List.mem_cons.1 inside with rfl | inside
      · exact (solid_of_isCommentMark marked).2
      · exact unbroken c inside
  | entry spelled => exact spelled.unbroken

/-- A line becomes logical lines of its own, which hold the entries that it spells. -/
theorem joinLines (h : Line pairs line) (rest : List Text) :
    ∃ lines, joinLines none (line :: rest) = lines ++ joinLines none rest ∧
      ∀ table, readLines table lines = ⟨table.putAll pairs, none⟩ := by
  cases h with
  | blank blank =>
    refine ⟨[], ?_, fun table => rfl⟩
    rw [Properties.joinLines, skipBlanks_eq_nil blank]
    rfl
  | @comment lead note mark left marked unbroken =>
    have ignored : isIgnored (skipBlanks (lead ++ mark :: note)) = true := by
      rw [skipBlanks_append left, skipBlanks_cons (solid_of_isCommentMark marked).1]
      exact marked
    refine ⟨[], ?_, fun table => rfl⟩
    rw [Properties.joinLines, if_pos ignored]
    rfl
  | @entry pair line spelled =>
    refine ⟨[skipBlanks line], ?_, fun table => ?_⟩
    · simp [Properties.joinLines, spelled.starts, spelled.ends]
    · rw [readLines, spelled.decode]
      rfl

end Line

/-- Reading a document into a table stores its entries one after the other. -/
theorem readInto_document {pairs : List (Text × Text)} {document : Text}
    (h : Document pairs document) (table : Table) :
    readInto table document = ⟨table.putAll pairs, none⟩ := by
  induction h generalizing table with
  | last spelled =>
    obtain ⟨lines, joined, stored⟩ := spelled.joinLines []
    rw [readInto, logicalLines, naturalLines_last spelled.unbroken, joined, joinLines,
      List.append_nil]
    exact stored table
  | @cons pairs more line ending rest spelled ended below ih =>
    -- A carriage return may belong to a line feed that the rest starts with.
    obtain ⟨afterReturn, first⟩ := naturalLines_ended spelled.unbroken ended rest
    obtain ⟨lines, joined, stored⟩ := spelled.joinLines (naturalLinesAfter afterReturn rest)
    have later := ih (table.putAll pairs)
    unfold readInto at later
    rw [readInto, logicalLines, first, joined, joinLines_naturalLinesAfter, readLines_append,
      stored table]
    simp only
    rw [later, Table.putAll_append]

/-- **Reading is complete.** Of a document that spells entries, all are read and nothing else: the
keys in the order in which they were first given, each with the value it was given last. -/
theorem complete_read_document {pairs : List (Text × Text)} {document : Text}
    (h : Document pairs document) :
    (read document).complete = .ok (Table.empty.putAll pairs) ∧
      (Table.empty.putAll pairs).keys = (pairs.map Prod.fst).eraseDups ∧
      ∀ key, (Table.empty.putAll pairs).get? key = pairs.reverse.lookup key := by
  have stored : read document = ⟨Table.empty.putAll pairs, none⟩ := readInto_document h .empty
  refine ⟨?_, Table.keys_putAll pairs, Table.get?_putAll pairs⟩
  rw [stored]
  rfl

/-- A document with a comment that ends in a backslash, a blank line, a key with escapes, a value
that ends in an escaped blank, a key that is given twice, and each end of line. -/
def sample : Text :=
  "! note \\\r \t\n  a\\ b\\u00E9 : \\\\\\ \t\r\nk=1\nk 2"

/-- The entries of the sample. -/
def sampleEntries : List (Text × Text) :=
  [(['a', ' ', 'b', 'é'], ['\\', ' ']), (['k'], ['1']), (['k'], ['2'])]

theorem document_sample : Document sampleEntries sample := by
  have nothing : AllBlank [] := by simp [AllBlank]
  have space : AllBlank [' '] := by simp [AllBlank, isBlank]
  have spaces : AllBlank [' ', ' '] := by simp [AllBlank, isBlank]
  have tab : AllBlank ['\t'] := by simp [AllBlank, isBlank]
  have feed : (['\n'] : Text) ∈ lineEnds := by decide
  have return_ : (['\r'] : Text) ∈ lineEnds := by decide
  have both : (['\r', '\n'] : Text) ∈ lineEnds := by decide
  have comment : Line [] ['!', ' ', 'n', 'o', 't', 'e', ' ', '\\'] :=
    .comment nothing (by decide) (by decide)
  have blank : Line [] [' ', '\t'] := .blank (by simp [AllBlank, isBlank])
  have number : Spelling 'é' ['\\', 'u', '0', '0', 'E', '9'] := by
    have zero : (CodePoint.ofChar '0', 0) ∈ hexDigits := by decide +kernel
    have fourteen : (CodePoint.ofChar 'E', 14) ∈ hexDigits := by decide +kernel
    have nine : (CodePoint.ofChar '9', 9) ∈ hexDigits := by decide +kernel
    exact .number zero zero fourteen nine (by decide)
  have key : Spelled ['a', ' ', 'b', 'é'] ['a', '\\', ' ', 'b', '\\', 'u', '0', '0', 'E', '9'] := by
    refine .cons (s := ['a']) (.itself (by decide)) ?_
    refine .cons (s := ['\\', ' ']) (.escaped (by decide)) ?_
    exact .cons (s := ['b']) (.itself (by decide)) (.cons number .nil)
  have value : Spelled ['\\', ' '] ['\\', '\\', '\\', ' '] := by
    refine .cons (s := ['\\', '\\']) (.escaped (by decide)) ?_
    exact .cons (s := ['\\', ' ']) (.escaped (by decide)) .nil
  have k : Spelled ['k'] ['k'] := .cons (s := ['k']) (.itself (by decide)) .nil
  have one : Spelled ['1'] ['1'] := .cons (s := ['1']) (.itself (by decide)) .nil
  have two : Spelled ['2'] ['2'] := .cons (s := ['2']) (.itself (by decide)) .nil
  have colon : Delimits ['a', ' ', 'b', 'é'] ['\\', ' '] [' ', ':', ' '] :=
    .separator space (by decide) space
  have equals : Delimits ['k'] ['1'] ['='] := .separator nothing (by decide) nothing
  have gap : Delimits ['k'] ['2'] [' '] := .blanks (by decide) space (by decide)
  have first := Line.entry (EntryLine.intro spaces key colon value tab)
  have second := Line.entry (EntryLine.intro nothing k equals one nothing)
  have third := Line.entry (EntryLine.intro nothing k gap two nothing)
  have lines := Document.cons comment return_ (.cons blank feed (.cons first both
    (.cons second feed (.last third))))
  refine (congrArg (Document sampleEntries) ?_).mp lines
  decide +kernel

theorem complete_read_sample :
    Document sampleEntries sample ∧
      (read sample).complete = .ok (Table.empty.putAll sampleEntries) ∧
      (Table.empty.putAll sampleEntries).keys = ([['a', ' ', 'b', 'é'], ['k']] : List Text) ∧
      (Table.empty.putAll sampleEntries).get? ['k'] = some (['2'] : Text) := by
  obtain ⟨complete, keys, values⟩ := complete_read_document document_sample
  refine ⟨document_sample, complete, keys.trans ?_, (values _).trans ?_⟩
  · decide +kernel
  · decide +kernel

/-! ## Delimiters without a separator -/

/-- A spelled text on a line of its own is read as a key. -/
theorem read_key {lead text raw trail : Text} (left : AllBlank lead) (spelled : Spelled text raw)
    (some_text : text ≠ []) (right : AllBlank trail) :
    read (lead ++ (raw ++ trail)) = ⟨Table.empty.put text [], none⟩ := by
  have between : Delimits text [] trail := by
    by_cases bare : trail = []
    · rw [bare]
      exact .nothing some_text rfl
    · exact .blanks some_text right bare
  have line := EntryLine.intro left spelled between .nil (show AllBlank [] by simp [AllBlank])
  rw [List.append_nil, List.append_nil] at line
  exact readInto_document (.last (.entry line)) .empty

/-- A key and a value with blanks between them, or nothing, are read as an entry only if that is a
delimiter of the two. -/
theorem delimits_of_blank {key value lead rawKey delimiter rawValue trail : Text}
    (left : AllBlank lead) (spelledKey : Spelled key rawKey) (blank : AllBlank delimiter)
    (spelledValue : Spelled value rawValue) (right : AllBlank trail)
    (only : read (lead ++ (rawKey ++ (delimiter ++ (rawValue ++ trail)))) =
      ⟨Table.empty.put key value, none⟩) :
    Delimits key value delimiter := by
  by_cases unnamed : key = []
  · exfalso
    subst unnamed
    have indented : AllBlank (lead ++ delimiter) := fun c inside =>
      (List.mem_append.1 inside).elim (left c) (blank c)
    rw [spelledKey.eq_nil, List.nil_append, ← List.append_assoc] at only
    by_cases bare : value = []
    · subst bare
      have all : AllBlank (lead ++ delimiter ++ trail) := fun c inside =>
        (List.mem_append.1 inside).elim (indented c) (right c)
      have nothing := readInto_document (.last (.blank all)) .empty
      rw [spelledValue.eq_nil, List.nil_append, read, nothing] at only
      have keys := congrArg (fun r => r.table.keys) only
      contradiction
    · rw [read_key indented spelledValue bare right] at only
      have keys : [value] = [[]] := congrArg (fun r => r.table.keys) only
      exact bare (List.cons.inj keys).1
  · by_cases gap : delimiter = []
    · subst gap
      by_cases bare : value = []
      · exact .nothing unnamed bare
      · have joined : key ++ value ≠ [] := by simp [unnamed]
        rw [List.nil_append, ← List.append_assoc rawKey,
          read_key left (spelledKey.append spelledValue) joined right] at only
        have keys : [key ++ value] = [key] := congrArg (fun r => r.table.keys) only
        exact absurd (List.append_right_eq_self.1 (List.cons.inj keys).1) bare
    · exact .blanks unnamed blank gap

end DottedKeys.Properties
