import DottedKeys.Proofs.Disk.PathText
import DottedKeys.Proofs.Disk.Walk
import DottedKeys.Proofs.Package.EntryName

/-!
# Where the source of a type is staged

The segments of a type name are joined as paths are. A segment with a slash may be more than one name,
and one that starts with a slash discards those before it. `entry_eq_slashed_iff` says which entries
are the type name with slashes for dots, and `parse_entry` which paths the relative ones are;
`entryName_slashed` adds where the source is staged.
-/

namespace DottedKeys

/-- A location is under another if names lead there that do not lead back. -/
def Location.IsUnder (top l : Location) : Prop :=
  ∃ names, names ≠ [] ∧ back ∉ names ∧ l = ⟨top.absolute, top.names ++ names⟩

namespace Package

open DottedKeys.Path

/-- A type name with a slash in the place of each dot. -/
def slashed (typeName : Text) : Text :=
  typeName.map fun c => if c = Key.dot then slash else c

variable {typeName suffix entry : Text}

/-! ## Segments -/

/-- The pieces between the slashes of a slashed name are those of its segments. -/
theorem splitOn_slashed (typeName : Text) :
    Text.splitOn slash (slashed typeName) =
      (typeName.splitOn Key.dot).flatMap (Text.splitOn slash) := by
  induction typeName with
  | nil => rfl
  | cons c rest ih =>
    have some_segment := Text.splitOn_ne_nil Key.dot rest
    rw [slashed, List.map_cons, Text.splitOn]
    by_cases dotted : c = Key.dot
    · rw [if_pos dotted, Text.splitOn, if_pos rfl, if_pos dotted, ← slashed, ih]
      rfl
    · obtain ⟨first, more, segments⟩ := List.exists_cons_of_ne_nil some_segment
      have whole : Text.splitOn Key.dot (c :: rest) = (c :: first) :: more := by
        rw [Text.splitOn, if_neg dotted, segments]
        rfl
      rw [segments, List.flatMap_cons] at ih
      rw [whole, if_neg dotted, List.flatMap_cons, Text.splitOn, ← slashed, ih]
      split
      next => rfl
      next => exact Text.consFirst_append c (Text.splitOn_ne_nil slash first) _

/-- A segment that is not empty and does not start with a slash has a name. -/
theorem names_parse_ne_nil {segment : Text} (dotless : Key.dot ∉ segment) (some_segment : segment ≠ [])
    (relative : segment.head? ≠ some slash) : (parse segment).names ≠ [] := by
  cases segment with
  | nil => exact absurd rfl some_segment
  | cons c rest =>
    have solid : ¬ IsFiller c := by
      rintro (rfl | rfl)
      · exact relative rfl
      · exact dotless List.mem_cons_self
    obtain ⟨name, among, -⟩ := exists_name_of_mem List.mem_cons_self solid
    exact List.ne_nil_of_mem among

/-! ## Entries -/

/-- Segments of which none starts with a slash are followed one after the other. Their names hold
neither dots nor slashes. -/
theorem ofTexts_segments (solid : [] ∉ typeName.splitOn Key.dot)
    (relative : ∀ segment ∈ typeName.splitOn Key.dot, segment.head? ≠ some slash) :
    ∃ front last, ofTexts (typeName.splitOn Key.dot) = ⟨.here, front ++ [last]⟩ ∧
      ∀ name ∈ front ++ [last], name ≠ [] ∧ Key.dot ∉ name ∧ slash ∉ name := by
  rw [ofTexts_eq relative]
  generalize found : (typeName.splitOn Key.dot).flatMap (fun part => (parse part).names) = names
  have each : ∀ name ∈ names, name ≠ [] ∧ Key.dot ∉ name ∧ slash ∉ name := by
    intro name among
    rw [← found] at among
    obtain ⟨segment, cut, inside⟩ := List.mem_flatMap.1 among
    obtain ⟨some_name, -, unmarked⟩ := names_parse inside
    exact ⟨some_name, fun dotted => Text.not_mem_of_mem_splitOn cut (mem_of_mem_names_parse inside dotted),
      unmarked⟩
  have some_name : names ≠ [] := by
    obtain ⟨first, cut⟩ := List.exists_mem_of_ne_nil _ (Text.splitOn_ne_nil Key.dot typeName)
    have named := names_parse_ne_nil (Text.not_mem_of_mem_splitOn cut) (fun bare => solid (bare ▸ cut))
      (relative first cut)
    obtain ⟨name, inside⟩ := List.exists_mem_of_ne_nil _ named
    rw [← found]
    exact List.ne_nil_of_mem (List.mem_flatMap.2 ⟨first, cut, inside⟩)
  refine ⟨names.dropLast, names.getLast some_name, ?_, ?_⟩
  · rw [List.dropLast_append_getLast]
  · rwa [List.dropLast_append_getLast]

/-- An entry starts with a slash exactly if a segment of the type name does. -/
theorem head?_entry_iff (named : entryName typeName suffix = .ok entry) :
    entry.head? = some slash ↔ ∃ segment ∈ typeName.splitOn Key.dot, segment.head? = some slash := by
  obtain ⟨-, rfl⟩ := entryName_eq_ok_iff.1 named
  rw [head?_text_append fun name among => ⟨(names_ofTexts among).1, (names_ofTexts among).2.2⟩, ne_eq,
    anchor_ofTexts_eq_here_iff]
  simp

/-- Segments are joined as they stand exactly if they have no empty piece between slashes. -/
theorem text_eq_slashed_iff (solid : [] ∉ typeName.splitOn Key.dot)
    (relative : ∀ segment ∈ typeName.splitOn Key.dot, segment.head? ≠ some slash) :
    (ofTexts (typeName.splitOn Key.dot)).text = slashed typeName ↔
      ∀ segment ∈ typeName.splitOn Key.dot, [] ∉ segment.splitOn slash := by
  constructor
  · intro same segment cut empty
    obtain ⟨front, last, joined, each⟩ := ofTexts_segments solid relative
    have pieces : Text.splitOn slash (slashed typeName) = front ++ [last] := by
      rw [← same, joined, text_eq_of_names (by simp)]
      exact Text.splitOn_intercalate (by simp) fun name among => (each name among).2.2
    rw [splitOn_slashed] at pieces
    have among : [] ∈ front ++ [last] := pieces ▸ List.mem_flatMap.2 ⟨segment, cut, empty⟩
    exact (each [] among).1 rfl
  · intro filled
    have parsed : ∀ segment ∈ typeName.splitOn Key.dot,
        (parse segment).names = segment.splitOn slash := by
      intro segment cut
      rw [parse_eq_of_solid (filled segment cut) fun dot => ?_]
      exact Text.not_mem_of_mem_splitOn cut (Text.mem_of_mem_splitOn dot List.mem_cons_self)
    rw [ofTexts_eq relative, List.flatMap_congr parsed, ← splitOn_slashed,
      text_eq_of_names (Text.splitOn_ne_nil slash _)]
    exact Text.intercalate_splitOn slash (slashed typeName)

/-- An entry is the slashed type name and does not start with a slash exactly if no segment has an
empty piece between slashes. -/
theorem entry_eq_slashed_iff (named : entryName typeName suffix = .ok entry) :
    (entry = slashed typeName ++ suffix ∧ entry.head? ≠ some slash) ↔
      ∀ segment ∈ typeName.splitOn Key.dot, [] ∉ segment.splitOn slash := by
  have starts := head?_entry_iff named
  obtain ⟨solid, rfl⟩ := entryName_eq_ok_iff.1 named
  rw [List.append_left_inj, ne_eq, starts]
  constructor
  · rintro ⟨same, below⟩
    exact (text_eq_slashed_iff solid fun segment cut marked => below ⟨segment, cut, marked⟩).1 same
  · intro filled
    have relative : ∀ segment ∈ typeName.splitOn Key.dot, segment.head? ≠ some slash :=
      fun segment cut marked => filled segment cut (Text.nil_mem_splitOn_of_head? marked)
    refine ⟨(text_eq_slashed_iff solid relative).2 filled, ?_⟩
    rintro ⟨segment, cut, marked⟩
    exact relative segment cut marked

/-- Without a segment that starts with a slash the entry is a path of names that do not lead back. -/
theorem parse_entry (named : entryName typeName suffix = .ok entry) (ending : slash ∉ suffix)
    (relative : ∀ segment ∈ typeName.splitOn Key.dot, segment.head? ≠ some slash) :
    ∃ names, names ≠ [] ∧ (".." : Text) ∉ names ∧ parse entry = ⟨.here, names⟩ := by
  obtain ⟨solid, rfl⟩ := entryName_eq_ok_iff.1 named
  obtain ⟨front, last, joined, each⟩ := ofTexts_segments solid relative
  -- The suffix goes on with the last name, which is not empty, so no name starts with a dot.
  have suffixed : ∀ name ∈ front ++ [last ++ suffix],
      name ≠ [] ∧ name.head? ≠ some Key.dot ∧ slash ∉ name := by
    intro name among
    rcases List.mem_append.1 among with before | ends
    · obtain ⟨some_name, dotless, unmarked⟩ := each name (List.mem_append_left _ before)
      exact ⟨some_name, fun dotted => dotless (List.mem_of_mem_head? dotted), unmarked⟩
    · obtain rfl := List.mem_singleton.1 ends
      obtain ⟨some_last, dotless, unmarked⟩ := each last (by simp)
      refine ⟨by simp [some_last], fun dotted => ?_, by simp [unmarked, ending]⟩
      rw [List.head?_append_of_ne_nil _ some_last] at dotted
      exact dotless (List.mem_of_mem_head? dotted)
  refine ⟨front ++ [last ++ suffix], by simp, fun back => (suffixed _ back).2.1 rfl, ?_⟩
  rw [joined]
  refine parse_text_append fun name among => ?_
  obtain ⟨some_name, dotless, unmarked⟩ := suffixed name among
  refine ⟨some_name, ?_, unmarked⟩
  rintro rfl
  exact dotless rfl

/-! ## Staged files -/

theorem stagedPath_of_absolute {staging : Text} (absolute : entry.head? = some slash) :
    stagedPath staging entry = parse entry := by
  have anchored : (parse entry).anchor ≠ .here := fun here => anchorOf_eq_here_iff.1 here absolute
  rw [stagedPath, join, if_neg anchored]

theorem isUnder_stagedPath {staging : Text} {names : List Text} (some_name : names ≠ [])
    (forward : (".." : Text) ∉ names) (relative : parse entry = ⟨.here, names⟩) :
    (Disk.destination (parse staging)).IsUnder (Disk.destination (stagedPath staging entry)) := by
  refine ⟨names.map FileName.ofText, by simpa using some_name,
    Disk.back_not_mem_map_ofText forward, ?_⟩
  rw [stagedPath, relative, join, if_pos rfl, Disk.destination_append _ _ forward]

/-- **Entries of type names.** A type name without an empty segment has an entry. With a suffix without
slashes that entry is the type name with slashes for dots and the suffix, and does not start with a
slash, exactly if no segment has an empty piece between slashes. It starts with a slash exactly if a
segment does. Then the source is staged at the entry itself, wherever the staging directory is;
otherwise it is staged below the staging directory. -/
theorem entryName_slashed {typeName suffix : Text} (solid : [] ∉ typeName.splitOn Key.dot)
    (ending : slash ∉ suffix) :
    ∃ entry, entryName typeName suffix = .ok entry ∧
      ((entry = slashed typeName ++ suffix ∧ entry.head? ≠ some slash) ↔
        ∀ segment ∈ typeName.splitOn Key.dot, [] ∉ segment.splitOn slash) ∧
      (entry.head? = some slash ↔
        ∃ segment ∈ typeName.splitOn Key.dot, segment.head? = some slash) ∧
      ∀ staging,
        (entry.head? = some slash → stagedPath staging entry = parse entry) ∧
        (entry.head? ≠ some slash →
          (Disk.destination (parse staging)).IsUnder
            (Disk.destination (stagedPath staging entry))) := by
  obtain ⟨entry, made⟩ : ∃ entry, entry = (ofTexts (typeName.splitOn Key.dot)).text ++ suffix := ⟨_, rfl⟩
  have named := entryName_eq_ok_iff.2 ⟨solid, made⟩
  have starts := head?_entry_iff named
  refine ⟨entry, named, entry_eq_slashed_iff named, starts, fun staging =>
    ⟨stagedPath_of_absolute, fun below => ?_⟩⟩
  have relative : ∀ segment ∈ typeName.splitOn Key.dot, segment.head? ≠ some slash :=
    fun segment cut marked => below (starts.2 ⟨segment, cut, marked⟩)
  obtain ⟨names, some_name, forward, parsed⟩ := parse_entry named ending relative
  exact isUnder_stagedPath some_name forward parsed

theorem entryName_slashed_inner :
    [] ∉ Text.splitOn Key.dot "com.acme/keys.Keys" ∧ slash ∉ (".py" : Text) ∧
      ∃ entry, entryName "com.acme/keys.Keys" ".py" = .ok entry ∧
        entry = "com/acme/keys/Keys.py" ∧ entry.head? ≠ some slash ∧
        (Disk.destination (parse "build/../tmp")).IsUnder
          (Disk.destination (stagedPath "build/../tmp" entry)) := by
  have solid : [] ∉ Text.splitOn Key.dot "com.acme/keys.Keys" := by decide +kernel
  have ending : slash ∉ (".py" : Text) := by decide
  have filled : ∀ segment ∈ Text.splitOn Key.dot "com.acme/keys.Keys", [] ∉ segment.splitOn slash := by
    decide +kernel
  have written : slashed "com.acme/keys.Keys" ++ ".py" = "com/acme/keys/Keys.py" := by decide +kernel
  obtain ⟨entry, named, same, -, staged⟩ := entryName_slashed solid ending
  obtain ⟨spelled, below⟩ := same.2 filled
  exact ⟨solid, ending, entry, named, spelled.trans written, below, (staged _).2 below⟩

/-- A segment that starts with a slash discards those before it, and the source is staged outside of
the staging directory. -/
theorem exists_entry_ne_slashed :
    ∃ typeName suffix staging entry : Text, [] ∉ typeName.splitOn Key.dot ∧ slash ∉ suffix ∧
      entryName typeName suffix = .ok entry ∧ entry ≠ slashed typeName ++ suffix ∧
      entry.head? = some slash ∧
      ¬ (Disk.destination (parse staging)).IsUnder
        (Disk.destination (stagedPath staging entry)) := by
  refine ⟨"com./acme", ".py", "tmp", "/acme.py", by decide +kernel, by decide, by decide +kernel,
    by decide +kernel, rfl, ?_⟩
  rintro ⟨names, -, -, under⟩
  have outside : (Disk.destination (stagedPath "tmp" "/acme.py")).absolute ≠
      (Disk.destination (parse "tmp")).absolute := by decide +kernel
  have inside := congrArg Location.absolute under
  exact outside inside

end Package

end DottedKeys
