import DottedKeys.Proofs.Properties.Dangling
import DottedKeys.Proofs.Properties.Reading
import DottedKeys.Proofs.Properties.Seam

/-!
# Hollow lines

Blank lines are dropped, but not where a line is being continued. So there is an empty logical line
behind backslashes that stand alone on their lines (`nil_mem_logicalLines_iff`), and it is an entry
whose key and value are empty. At the end of a text such a line is dropped, and a line feed there brings
it back (`logicalLines_concat_feed`). `hollow_lines` says that there is no other way to either.
-/

namespace DottedKeys.Properties

/-- Natural lines that end in backslashes, each alone on its line, where the first continues nothing. -/
def Hollow (natural : List Text) : Prop :=
  ∃ front alone, natural = front ++ alone ∧ gatherAll none front = none ∧ alone ≠ [] ∧
    ∀ line ∈ alone, skipBlanks line = ['\\']

/-! ## One line -/

section Step

variable {pending : Option Text} {natural : Text}

/-- Nothing is left of a line that goes on without its last backslash only if it is that backslash. -/
theorem eq_of_continues {line : Text} (goes_on : continues line = true) (bare : line.dropLast = []) :
    line = ['\\'] := by
  match line, bare with
  | [], _ => contradiction
  | [c], _ =>
    rw [continues_eq, isOpenAfter, isOpenAfter] at goes_on
    obtain rfl : c = '\\' := of_decide_eq_true goes_on
    rfl

/-- A continued line with nothing in it is gathered from a backslash alone on its line, at the beginning
or behind such another. -/
theorem gather_eq_some_nil_iff :
    gather pending natural = some [] ↔
      skipBlanks natural = ['\\'] ∧ (pending = none ∨ pending = some []) := by
  constructor
  · intro gathered
    obtain ⟨-, goes_on, joined⟩ := gather_eq_some_iff.1 gathered
    obtain ⟨nothing, bare⟩ := List.append_eq_nil_iff.1 joined
    rw [contents, if_pos goes_on] at bare
    refine ⟨eq_of_continues goes_on bare, ?_⟩
    cases pending with
    | none => exact .inl rfl
    | some text => exact .inr (congrArg some nothing)
  · rintro ⟨alone, before⟩
    rw [gather_eq_some_iff, isSkipped, contents, alone]
    rcases before with rfl | rfl
    · decide
    · decide

/-- An empty line comes out where a blank line ends a continued line with nothing in it. -/
theorem completed?_eq_some_nil_iff :
    completed? pending natural = some [] ↔ skipBlanks natural = [] ∧ pending = some [] := by
  constructor
  · intro ended
    obtain ⟨kept, whole, joined⟩ := completed?_eq_some_iff.1 ended
    obtain ⟨nothing, blank⟩ := List.append_eq_nil_iff.1 joined
    rw [contents, if_neg (by simp [whole])] at blank
    refine ⟨blank, ?_⟩
    cases pending with
    | none =>
      -- Where nothing is being continued, a blank line is passed over.
      rw [isSkipped, blank] at kept
      contradiction
    | some text => exact congrArg some nothing
  · rintro ⟨blank, rfl⟩
    rw [completed?_eq_some_iff, isSkipped_some, contents, blank]
    decide

end Step

/-! ## Texts -/

/-- A continued line has nothing in it exactly behind backslashes that stand alone. -/
theorem hollow_iff {natural : List Text} : Hollow natural ↔ gatherAll none natural = some [] := by
  constructor
  · rintro ⟨front, alone, rfl, outside, some_line, each⟩
    induction alone using List.reverseRecOn with
    | nil => contradiction
    | append_singleton alone last ih =>
      rw [← List.append_assoc, gatherAll_concat, gather_eq_some_nil_iff]
      refine ⟨each last (by simp), ?_⟩
      by_cases first : alone = []
      · subst first
        rw [List.append_nil]
        exact .inl outside
      · exact .inr (ih first fun line member => each line (by simp [member]))
  · intro gathered
    induction natural using List.reverseRecOn with
    | nil => contradiction
    | append_singleton natural last ih =>
      rw [gatherAll_concat, gather_eq_some_nil_iff] at gathered
      obtain ⟨lone, outside | behind⟩ := gathered
      · exact ⟨natural, [last], rfl, outside, by simp, by simpa using lone⟩
      · obtain ⟨front, alone, rfl, outside, -, each⟩ := ih behind
        refine ⟨front, alone ++ [last], List.append_assoc _ _ _, outside, by simp, ?_⟩
        simpa [or_imp, forall_and, lone] using each

/-- There is an empty logical line exactly if a blank line stands behind lone backslashes. -/
theorem nil_mem_logicalLines_iff {t : Text} :
    [] ∈ logicalLines t ↔ ∃ front blank rest,
      naturalLines t = front ++ blank :: rest ∧ Hollow front ∧ skipBlanks blank = [] := by
  rw [logicalLines, mem_joinLines_iff]
  simp only [completed?_eq_some_nil_iff, hollow_iff, ne_eq, not_true_eq_false, and_false, or_false]
  exact exists₃_congr fun front blank rest => and_congr_right' and_comm

/-- A line feed at the end of a text adds a logical line only behind lone backslashes, and then an empty
one. -/
theorem logicalLines_concat_feed {t : Text} (complete : t.getLast? ≠ some (CodePoint.ofChar '\r')) :
    (¬ Hollow (naturalLines t) → logicalLines (t ++ (['\n'] : Text)) = logicalLines t) ∧
      (Hollow (naturalLines t) → logicalLines (t ++ (['\n'] : Text)) = logicalLines t ++ [[]]) := by
  obtain ⟨lines, before, after⟩ := exists_logicalLines_append_feed complete
  have fed := after []
  rw [before, fed, hollow_iff]
  cases gatherAll none (naturalLines t) with
  | none => exact ⟨fun _ => rfl, fun gathered => by contradiction⟩
  | some text =>
    -- The line feed ends the line that is being continued, whatever is in it.
    have ended : joinLines (some text) (naturalLines []) = [text] := by
      have blank : completed? (some text) [] = some text := congrArg some (List.append_nil text)
      have nothing : gather (some text) [] = none := rfl
      rw [naturalLines, naturalLinesAfter, joinLines_cons, blank, nothing]
      rfl
    rw [ended]
    cases text with
    | nil => simp [joinLines]
    | cons c text => simp [joinLines]

/-! ## Entries -/

/-- An empty text is spelled by nothing else, outside an escape. -/
theorem eq_nil_of_unescape {raw : Text} (closed : isOpenAfter false raw = false)
    (decoded : unescape raw = .ok []) : raw = [] := by
  cases raw using byPieces with
  | nil => rfl
  | piece stands rest =>
    rw [stands.unescape] at decoded
    cases read : unescape rest <;> simp [read, Except.map] at decoded
  | lone => contradiction
  | malformed after short =>
    rw [unescape_malformed short] at decoded
    contradiction

/-- The first code point of a text is a separator. -/
def StartsWithSeparator (t : Text) : Prop :=
  ∃ c ∈ t.head?, isSeparator c = true

/-- The key of a logical line is empty exactly if the line is, or starts with a separator. -/
theorem key_eq_nil_iff {t line : Text} (member : line ∈ logicalLines t) {entry : Text × Text}
    (decoded : decodeEntry line = .ok entry) :
    entry.1 = [] ↔ line = [] ∨ StartsWithSeparator line := by
  have key := unescape_key decoded
  have closed : isOpenAfter false (splitEntry line).1 = false :=
    isOpenAfter_cutKey_fst (isOpenAfter_of_mem_logicalLines member)
  have bare : entry.1 = [] ↔ (splitEntry line).1 = [] := by
    constructor
    · intro unnamed
      rw [unnamed] at key
      exact eq_nil_of_unescape closed key
    · intro nothing
      rw [nothing] at key
      exact (Except.ok.inj key).symm
  rw [bare]
  cases line with
  | nil => simp [splitEntry, cutKey]
  | cons c rest =>
    have solid : isBlank c = false := solid_of_mem_logicalLines member c rfl
    cases mark : isSeparator c <;>
      simp [splitEntry, cutKey, isDelimiter, StartsWithSeparator, solid, mark]

/-- A key of a table that was read into was there before, or a line has it. -/
theorem mem_keys_readLines {key : Text} {table : Table} {lines : List Text}
    (stored : key ∈ (readLines table lines).table.keys) :
    key ∈ table.keys ∨ ∃ line ∈ lines, ∃ value, decodeEntry line = .ok (key, value) := by
  induction lines generalizing table with
  | nil => exact .inl stored
  | cons line rest ih =>
    rw [readLines] at stored
    cases decoded : decodeEntry line with
    | error fault =>
      rw [decoded] at stored
      exact .inl stored
    | ok entry =>
      rw [decoded] at stored
      rcases ih stored with known | ⟨other, later, found⟩
      · rw [Table.keys_put] at known
        split at known
        next => exact .inl known
        next =>
          rcases List.mem_append.1 known with before | new
          · exact .inl before
          · obtain rfl := List.mem_singleton.1 new
            exact .inr ⟨line, List.mem_cons_self, entry.2, decoded⟩
      · exact .inr ⟨other, List.mem_cons_of_mem line later, found⟩

/-- The entry of an empty line is empty. -/
theorem decodeEntry_nil : decodeEntry [] = .ok ([], []) :=
  rfl

/-- **Hollow lines.** A logical line is empty exactly if it comes of a blank line behind backslashes that
stand alone on their lines, the first of which continues nothing. A line has an empty key exactly if it
is empty or starts with a separator, and no other line brings an empty key into a table. A line feed at
the end of a text, unless it belongs to a carriage return, changes what is read only behind such
backslashes: there it stores an empty value under the empty key. -/
theorem hollow_lines (t : Text) :
    ([] ∈ logicalLines t ↔ ∃ front blank rest,
      naturalLines t = front ++ blank :: rest ∧ Hollow front ∧ skipBlanks blank = []) ∧
    (∀ line ∈ logicalLines t, ∀ entry, decodeEntry line = .ok entry →
      (entry.1 = [] ↔ line = [] ∨ StartsWithSeparator line)) ∧
    (∀ table, [] ∈ (readInto table t).table.keys →
      [] ∈ table.keys ∨ ∃ line ∈ logicalLines t, line = [] ∨ StartsWithSeparator line) ∧
    (t.getLast? ≠ some (CodePoint.ofChar '\r') → ∀ table,
      (¬ Hollow (naturalLines t) → readInto table (t ++ (['\n'] : Text)) = readInto table t) ∧
      (Hollow (naturalLines t) → readInto table (t ++ (['\n'] : Text)) =
        match (readInto table t).fault with
        | none => ⟨(readInto table t).table.put [] [], none⟩
        | some _ => readInto table t)) := by
  refine ⟨nil_mem_logicalLines_iff, fun line member entry => key_eq_nil_iff member, ?_, ?_⟩
  · intro table stored
    rcases mem_keys_readLines stored with known | ⟨line, member, value, decoded⟩
    · exact .inl known
    · exact .inr ⟨line, member, (key_eq_nil_iff member decoded).1 rfl⟩
  · intro complete table
    obtain ⟨same, more⟩ := logicalLines_concat_feed complete
    constructor
    · intro sound
      rw [readInto, same sound]
      rfl
    · intro hollow
      have last (table : Table) : readLines table [[]] = ⟨table.put [] [], none⟩ := by
        rw [readLines, decodeEntry_nil]
        rfl
      rw [readInto, more hollow, readLines_append, last]
      rfl

/-- An entry, and backslashes alone on two lines. -/
def hollowText : Text :=
  "k=1\n \\\n\\"

theorem hollow_lines_hollowText :
    hollowText.getLast? ≠ some (CodePoint.ofChar '\r') ∧ Hollow (naturalLines hollowText) ∧
      (read (hollowText ++ (['\n'] : Text))).table.entries =
        [((['k'] : Text), (['1'] : Text)), ([], [])] ∧
      (read hollowText).table.entries = [((['k'] : Text), (['1'] : Text))] := by
  have complete : hollowText.getLast? ≠ some (CodePoint.ofChar '\r') := by decide +kernel
  have hollow : Hollow (naturalLines hollowText) :=
    ⟨[("k=1" : Text)], [(" \\" : Text), ("\\" : Text)], by decide +kernel, by decide +kernel,
      by simp, by decide +kernel⟩
  have fed := ((hollow_lines hollowText).2.2.2 complete .empty).2 hollow
  refine ⟨complete, hollow, ?_, by decide +kernel⟩
  rw [read, fed]
  decide +kernel

/-- A backslash alone on its line, with a line feed behind it, makes an empty logical line and an empty
entry, though no separator starts it. Without the line feed there is neither. -/
theorem exists_empty_line :
    logicalLines "\\\n" = [[]] ∧ (read "\\\n").table.entries = [([], [])] ∧
      ¬ StartsWithSeparator [] ∧ (read "\\").table.entries = [] := by
  refine ⟨by decide +kernel, by decide +kernel, ?_, by decide +kernel⟩
  rintro ⟨c, first, -⟩
  contradiction

end DottedKeys.Properties
