import DottedKeys.Key
import Mathlib.Data.List.DropRight
import Mathlib.Data.List.Induction

/-!
# Paths of keys

A key is cut into the names of its path and a field, and later put together again from the dotted
form of the path. What comes back is the `normal` form of the key (`qualify_path_field`): dots
right before the last one are lost, and with them a path that has no other names.
-/

namespace DottedKeys

/-! ## Splitting -/

namespace Text

variable {mark : CodePoint}

/-- A split at a mark is the splits of the two sides. -/
theorem splitOn_append_mark (s t : Text) :
    splitOn mark (s ++ mark :: t) = splitOn mark s ++ splitOn mark t := by
  induction s with
  | nil => simp [splitOn]
  | cons c rest ih =>
    rw [List.cons_append, splitOn, splitOn, ih]
    split
    · rfl
    · exact consFirst_append c (splitOn_ne_nil mark rest) _

/-- What is no mark belongs to the last piece. -/
theorem splitOn_concat {c : CodePoint} (other : c ≠ mark) (t : Text) :
    ∃ front last, splitOn mark (t ++ [c]) = front ++ [last ++ [c]] := by
  induction t with
  | nil => exact ⟨[], [], by simp [splitOn, other, consFirst]⟩
  | cons d rest ih =>
    obtain ⟨front, last, pieces⟩ := ih
    rw [List.cons_append, splitOn, pieces]
    split
    · exact ⟨[] :: front, last, rfl⟩
    · cases front with
      | nil => exact ⟨[], d :: last, rfl⟩
      | cons piece front => exact ⟨(d :: piece) :: front, last, rfl⟩

/-- No piece of a split holds a mark. -/
theorem not_mem_of_mem_splitOn {t piece : Text} (member : piece ∈ splitOn mark t) :
    mark ∉ piece := by
  induction t generalizing piece with
  | nil => simp_all [splitOn]
  | cons c rest ih =>
    rw [splitOn] at member
    split at member
    next =>
      rcases List.mem_cons.1 member with rfl | member
      · exact List.not_mem_nil
      · exact ih member
    next other =>
      rcases mem_consFirst member with rfl | inside | ⟨tail, inside, rfl⟩
      · simpa using Ne.symm other
      · exact ih inside
      · simpa [Ne.symm other] using ih inside

/-- A text without marks is one piece. -/
theorem splitOn_of_not_mem {t : Text} (unmarked : mark ∉ t) : splitOn mark t = [t] := by
  induction t with
  | nil => rfl
  | cons c rest ih =>
    have apart : mark ≠ c ∧ mark ∉ rest := by simpa using unmarked
    rw [splitOn, if_neg (Ne.symm apart.1), ih apart.2]
    rfl

/-- A mark with none behind it is the last one. -/
theorem splitLast?_append {after : Text} (unmarked : mark ∉ after) (before : Text) :
    splitLast? mark (before ++ mark :: after) = some (before, after) := by
  induction before with
  | nil => rw [List.nil_append, splitLast?, splitLast?_eq_none_iff.2 unmarked, if_pos rfl]
  | cons c before ih => rw [List.cons_append, splitLast?, ih]

/-- What stands behind the last mark is the last piece. -/
theorem splitOn_of_splitLast? {t before after : Text}
    (cut : splitLast? mark t = some (before, after)) :
    splitOn mark t = splitOn mark before ++ [after] := by
  rw [eq_of_splitLast? cut, splitOn_append_mark, splitOn_of_not_mem (not_mem_of_splitLast? cut)]

end Text

namespace Key

/-! ## Trailing dots -/

/-- A text without the dots at its end. -/
def dropTrailingDots (t : Text) : Text :=
  t.rdropWhile (· = dot)

theorem dropTrailingEmpty_concat_nil (names : List Text) :
    dropTrailingEmpty (names ++ [[]]) = dropTrailingEmpty names :=
  List.rdropWhile_concat_pos List.isEmpty names [] rfl

theorem dropTrailingEmpty_concat {last : Text} (some_last : last ≠ []) (names : List Text) :
    dropTrailingEmpty (names ++ [last]) = names ++ [last] :=
  List.rdropWhile_concat_neg List.isEmpty names last (by simpa using some_last)

/-- Empty names at the end of a path are dots at the end of its dotted form. -/
theorem join_dropTrailingEmpty_splitOn (path : Text) :
    join (dropTrailingEmpty (path.splitOn dot)) = dropTrailingDots path := by
  induction path using List.reverseRecOn with
  | nil => rfl
  | append_singleton path c ih =>
    by_cases same : c = dot
    · subst same
      have kept : dropTrailingDots (path ++ [dot]) = dropTrailingDots path :=
        List.rdropWhile_concat_pos _ path dot (by simp)
      rw [Text.splitOn_append_mark, Text.splitOn, dropTrailingEmpty_concat_nil, ih, kept]
    · have kept : dropTrailingDots (path ++ [c]) = path ++ [c] :=
        List.rdropWhile_concat_neg _ path c (by simpa using same)
      obtain ⟨front, last, pieces⟩ := Text.splitOn_concat same path
      have whole : join (front ++ [last ++ [c]]) = path ++ [c] := by
        rw [join, ← pieces, Text.intercalate_splitOn]
      rw [pieces, dropTrailingEmpty_concat (by simp), whole, kept]

theorem join_segments (path : Text) : join (segments path) = dropTrailingDots path := by
  unfold segments
  by_cases bare : path = []
  · subst bare
    rfl
  · have some_path : ¬ path.isEmpty = true := by simpa using bare
    rw [if_neg some_path, join_dropTrailingEmpty_splitOn]

/-! ## Normal forms -/

/-- The key of a field in the group of a path. -/
def qualify (path : List Text) (field : Text) : Text :=
  if (join path).isEmpty then field else join path ++ dot :: field

/-- A key without the dots that stand right before its last one, and without that one too if
nothing else stands before it. -/
def normal (key : Text) : Text :=
  match key.splitLast? dot with
  | none => key
  | some (before, after) =>
    if (dropTrailingDots before).isEmpty then after else dropTrailingDots before ++ dot :: after

/-- What is put together from the path and the field of a key is its normal form. -/
theorem qualify_path_field (key : Text) : qualify (path key) (field key) = normal key := by
  rw [qualify, path, field, normal]
  cases key.splitLast? dot with
  | none => rfl
  | some parts => simp only [join_segments]

/-- What stands before the last dot of a key, if it has one, is something that ends in no dot. -/
def Clear (key : Text) : Prop :=
  ∀ parts ∈ key.splitLast? dot, parts.1 ≠ [] ∧ parts.1.getLast? ≠ some dot

instance (key : Text) : Decidable (Clear key) :=
  inferInstanceAs (Decidable (∀ parts ∈ key.splitLast? dot, _))

/-- A clear key is in normal form. -/
theorem normal_eq_self {key : Text} (clear : Clear key) : normal key = key := by
  unfold normal
  cases cut : key.splitLast? dot with
  | none => rfl
  | some parts =>
    obtain ⟨some_before, solid⟩ := clear parts cut
    have kept : dropTrailingDots parts.1 = parts.1 := by
      apply List.rdropWhile_eq_self_iff.2
      intro inside
      simpa [List.getLast?_eq_some_getLast inside] using solid
    simp only [kept, List.isEmpty_iff, some_before, if_false]
    exact (Text.eq_of_splitLast? cut).symm

/-! ## Keys without empty names -/

theorem join_ne_nil {name : Text} {names : List Text} (some_name : name ≠ []) :
    join (name :: names) ≠ [] := by
  cases names with
  | nil => simpa [join, List.intercalate] using some_name
  | cons next names => simp [join, List.intercalate, some_name]

theorem join_append {names more : List Text} (some_name : names ≠ []) (some_more : more ≠ []) :
    join (names ++ more) = join names ++ dot :: join more := by
  induction names with
  | nil => exact absurd rfl some_name
  | cons name names ih =>
    cases names with
    | nil =>
      cases more with
      | nil => exact absurd rfl some_more
      | cons next more => simp [join, List.intercalate]
    | cons second names =>
      have later := ih (by simp)
      simp only [join, List.intercalate, List.cons_append, List.intersperse_cons_cons,
        List.flatten_cons, List.append_assoc] at later ⊢
      rw [later]

/-- Names in front of others are seen in the dotted form. -/
theorem join_append_eq_iff {names more : List Text} (some_more : more ≠ []) :
    join (names ++ more) = join more ↔ names = [] := by
  constructor
  · intro same
    by_contra some_name
    rw [join_append some_name some_more] at same
    have longer := congrArg List.length same
    simp at longer
    omega
  · rintro rfl
    rfl

theorem join_concat (name : Text) (names : List Text) (last : Text) :
    join (name :: names ++ [last]) = join (name :: names) ++ dot :: last := by
  rw [join_append (by simp) (by simp)]
  simp [join, List.intercalate]

theorem join_splitOn (key : Text) : join (key.splitOn dot) = key :=
  Text.intercalate_splitOn dot key

/-- A key goes on behind another and a dot exactly if it has the names of that one and more. -/
theorem dot_prefix_iff {key other : Text} :
    key ++ [dot] <+: other ↔ ∃ more, more ≠ [] ∧ other.splitOn dot = key.splitOn dot ++ more := by
  constructor
  · rintro ⟨rest, whole⟩
    refine ⟨Text.splitOn dot rest, Text.splitOn_ne_nil dot rest, ?_⟩
    rw [← whole, List.append_assoc]
    exact Text.splitOn_append_mark key rest
  · rintro ⟨more, some_more, names⟩
    refine ⟨join more, ?_⟩
    rw [← join_splitOn other, names, join_append (Text.splitOn_ne_nil dot key) some_more,
      join_splitOn, List.append_assoc]
    rfl

/-- Behind names that are not empty the key of a field is what they spell with it. -/
theorem qualify_eq_join {names : List Text} (solid : [] ∉ names) (field : Text) :
    qualify names field = join (names ++ [field]) := by
  cases names with
  | nil => simp [qualify, join, List.intercalate]
  | cons name names =>
    have some_name : name ≠ [] := fun bare => solid (by simp [bare])
    rw [qualify, join_concat, if_neg (by simpa using join_ne_nil some_name)]

theorem segments_eq_splitOn {before : Text} (solid : [] ∉ before.splitOn dot) :
    segments before = before.splitOn dot := by
  have some_before : ¬ before.isEmpty = true := by
    intro bare
    rw [List.isEmpty_iff.1 bare] at solid
    simp [Text.splitOn] at solid
  rw [segments, if_neg some_before]
  apply List.rdropWhile_eq_self_iff.2
  intro inside ends
  apply solid
  rw [← List.isEmpty_iff.1 ends]
  exact List.getLast_mem inside

/-- The names of a key are those of its path and then its field. -/
theorem splitOn_eq_path_field {key : Text} (solid : [] ∉ key.splitOn dot) :
    key.splitOn dot = path key ++ [field key] := by
  rw [path, field]
  cases cut : key.splitLast? dot with
  | none => exact Text.splitOn_of_not_mem (Text.splitLast?_eq_none_iff.1 cut)
  | some parts =>
    obtain ⟨before, after⟩ := parts
    have pieces := Text.splitOn_of_splitLast? cut
    rw [pieces] at solid
    show _ = segments before ++ [after]
    rw [pieces, segments_eq_splitOn fun bare => solid (List.mem_append_left _ bare)]

/-- The path and the field of a key without empty names give that key. -/
theorem qualify_path_field_of_solid {key : Text} (solid : [] ∉ key.splitOn dot) :
    qualify (path key) (field key) = key := by
  have names := splitOn_eq_path_field solid
  have solid_path : [] ∉ path key := by
    rw [names] at solid
    exact fun bare => solid (List.mem_append_left _ bare)
  rw [qualify_eq_join solid_path, ← names, join_splitOn]

/-- A qualified name without empty names is known by its two parts. -/
theorem splitQualified_inj {name other : Text} (solid : [] ∉ name.splitOn dot)
    (solid_other : [] ∉ other.splitOn dot) (same : splitQualified name = splitQualified other) :
    name = other := by
  have whole : ∀ name : Text, [] ∉ name.splitOn dot → name =
      if (splitQualified name).1 = [] then (splitQualified name).2
      else (splitQualified name).1 ++ dot :: (splitQualified name).2 := by
    intro name solid
    rw [splitQualified]
    cases cut : name.splitLast? dot with
    | none => rfl
    | some parts =>
      have joined := Text.eq_of_splitLast? cut
      have some_package : parts.1 ≠ [] := by
        intro bare
        apply solid
        rw [joined, bare, Text.splitOn_append_mark]
        exact List.mem_cons_self
      rw [Option.getD_some, if_neg some_package]
      exact joined
  rw [whole name solid, whole other solid_other, same]

/-- A key has a path exactly if it has a dot. -/
theorem path_eq_nil_iff {key : Text} (solid : [] ∉ key.splitOn dot) : path key = [] ↔ dot ∉ key := by
  constructor
  · intro bare
    have names := splitOn_eq_path_field solid
    rw [bare, List.nil_append] at names
    have single : key = field key :=
      calc key = join (key.splitOn dot) := (join_splitOn key).symm
        _ = field key := by rw [names]; simp [join, List.intercalate]
    have piece : key ∈ key.splitOn dot := by
      rw [names, ← single]
      exact List.mem_singleton_self key
    exact Text.not_mem_of_mem_splitOn piece
  · intro undotted
    rw [path, Text.splitLast?_eq_none_iff.2 undotted]

/-- The dotted form of a path shows whether there is one. -/
theorem join_path_ne_nil_iff {key : Text} (solid : [] ∉ key.splitOn dot) :
    join (path key) ≠ [] ↔ path key ≠ [] := by
  rw [splitOn_eq_path_field solid] at solid
  cases names : path key with
  | nil => simp [join, List.intercalate]
  | cons name later =>
    have some_name : name ≠ [] := fun bare => solid (by simp [names, bare])
    exact iff_of_true (join_ne_nil some_name) (by simp)

/-- A key goes on behind another exactly if its path goes through all names of that one. -/
theorem dot_prefix_iff_path {key other : Text} (solid : [] ∉ key.splitOn dot)
    (solid_other : [] ∉ other.splitOn dot) :
    key ++ [dot] <+: other ↔ path key ++ [field key] <+: path other := by
  rw [dot_prefix_iff, ← splitOn_eq_path_field solid, splitOn_eq_path_field solid_other]
  constructor
  · rintro ⟨more, some_more, names⟩
    obtain ⟨front, last, rfl⟩ := List.eq_nil_or_concat' more |>.resolve_left some_more
    rw [← List.append_assoc] at names
    exact ⟨front, (List.append_inj_left' names rfl).symm⟩
  · rintro ⟨front, names⟩
    exact ⟨front ++ [field other], by simp, by rw [← names, List.append_assoc]⟩

/-! ## What a path says about its keys -/

/-- The names of a path are the first ones of its key, and others follow. -/
theorem splitOn_eq_path_append (key : Text) :
    ∃ more, more ≠ [] ∧ key.splitOn dot = path key ++ more := by
  rw [path]
  cases cut : key.splitLast? dot with
  | none => exact ⟨_, Text.splitOn_ne_nil dot key, rfl⟩
  | some parts =>
    obtain ⟨before, after⟩ := parts
    have kept : segments before <+: before.splitOn dot := by
      unfold segments
      split
      next bare =>
        rw [List.isEmpty_iff.1 bare]
        exact List.prefix_refl _
      next => exact List.rdropWhile_prefix List.isEmpty _
    obtain ⟨dropped, whole⟩ := kept
    refine ⟨dropped ++ [after], by simp, ?_⟩
    rw [Text.splitOn_of_splitLast? cut, ← whole, List.append_assoc]

/-- A key whose path goes through some names starts with them and a dot. -/
theorem exists_eq_of_prefix_path {names : List Text} {key : Text} (some_name : names ≠ [])
    (passes : names <+: path key) : ∃ rest, key = join names ++ dot :: rest := by
  obtain ⟨later, whole⟩ := passes
  obtain ⟨more, some_more, pieces⟩ := splitOn_eq_path_append key
  refine ⟨join (later ++ more), ?_⟩
  rw [← join_append some_name (by simp [some_more]), ← List.append_assoc, whole, ← pieces,
    join_splitOn]

/-- No name of a path holds a dot. -/
theorem dot_not_mem_of_mem_path {name key : Text} (member : name ∈ path key) : dot ∉ name := by
  obtain ⟨more, -, pieces⟩ := splitOn_eq_path_append key
  have piece : name ∈ key.splitOn dot := by
    rw [pieces]
    exact List.mem_append_left more member
  exact Text.not_mem_of_mem_splitOn piece

/-- Names that differ only in the last one are spelled alike up to that one. -/
theorem exists_join_concat (names : List Text) :
    ∃ lead, ∀ last, join (names ++ [last]) = lead ++ last := by
  cases names with
  | nil => exact ⟨[], fun last => by simp [join, List.intercalate]⟩
  | cons name names =>
    refine ⟨join (name :: names) ++ [dot], fun last => ?_⟩
    rw [join_concat, List.append_assoc]
    rfl

end Key

end DottedKeys
