import DottedKeys.Proofs.Source.Plain
import Mathlib.Data.Nat.Find

/-!
# Constants listed by source

Read line by line, source lists the constants of its tree. `Form.listing` reads them off a text,
whatever names and values its lines hold, and `listed` gives the constants of a tree in the order of
its walk, each with the indentation of the classes around it. `listing_render` says that the two agree.
-/

namespace DottedKeys

namespace Group

mutual

/-- This group and those below it in the order of a walk, each with the names on the way to it, where
`path` leads to this one. -/
def walkFrom (path : List Text) : Group → List (List Text × Group)
  | ⟨qualifier, name, fields, children⟩ =>
    (path, ⟨qualifier, name, fields, children⟩) :: walkAllFrom path children

/-- The groups of several trees, of which `path` leads to the parent. -/
def walkAllFrom (path : List Text) : List Group → List (List Text × Group)
  | [] => []
  | g :: rest => walkFrom (path ++ [g.name]) g ++ walkAllFrom path rest

end

theorem walkAllFrom_eq_flatMap (path : List Text) (groups : List Group) :
    walkAllFrom path groups = groups.flatMap fun g => g.walkFrom (path ++ [g.name]) := by
  induction groups with
  | nil => rfl
  | cons g rest ih => rw [walkAllFrom, ih, List.flatMap_cons]

theorem walkFrom_eq (path : List Text) (g : Group) :
    g.walkFrom path = (path, g) :: g.children.flatMap fun child =>
      child.walkFrom (path ++ [child.name]) := by
  cases g
  rw [walkFrom, walkAllFrom_eq_flatMap]

/-- The groups are met in the order of a walk. -/
theorem map_snd_walkFrom (path : List Text) (g : Group) :
    (g.walkFrom path).map Prod.snd = g.walk := by
  induction g using byChildren generalizing path with
  | step g ih =>
    have below : ∀ groups : List Group, (∀ child ∈ groups, child ∈ g.children) →
        (groups.flatMap fun child => child.walkFrom (path ++ [child.name])).map Prod.snd =
          walkAll groups := by
      intro groups among
      induction groups with
      | nil => rfl
      | cons child rest later =>
        rw [List.flatMap_cons, List.map_append, walkAll, ih child (among child List.mem_cons_self),
          later fun other member => among other (List.mem_cons_of_mem child member)]
    rw [walkFrom_eq, walk_eq, List.map_cons, below g.children fun _ => id]

/-- The names that a group is met with lead to it. -/
theorem reaches_of_mem_walkFrom {g node : Group} {done path : List Text}
    (met : (path, node) ∈ g.walkFrom done) : ∃ names, path = done ++ names ∧ Reaches g names node := by
  induction g using byChildren generalizing done with
  | step g ih =>
    rw [walkFrom_eq, List.mem_cons, List.mem_flatMap] at met
    rcases met with here | ⟨child, member, inside⟩
    · obtain ⟨rfl, rfl⟩ := Prod.mk.inj here
      exact ⟨[], by simp, .here node⟩
    · obtain ⟨names, rfl, reached⟩ := ih child member inside
      exact ⟨child.name :: names, by simp, .through member reached⟩

end Group

namespace Source

open DottedKeys.Text

/-! ## Reading a line -/

section Read

variable {f : Form} {body name value : Text}

/-- The constant that the text of a line declares, if it declares one: the texts of the form stand
around a name, which ends where they first go on, and a value. -/
def Form.constant? (f : Form) (body : Text) : Option (Text × Text) := do
  let named ← body.dropPrefix? f.before
  let (name, rest) ← named.dropInfix? f.between
  let value ← rest.dropSuffix? f.after
  return (name, value)

/-- What is read as a constant is written as that constant. -/
theorem eq_of_constant? (read : f.constant? body = some (name, value)) :
    body = (Item.constant name value).text f := by
  simp only [Form.constant?, Option.bind_eq_bind, Option.bind_eq_some_iff, Option.pure_def,
    Option.some.injEq, Prod.mk.injEq] at read
  obtain ⟨named, began, ⟨name, rest⟩, parted, value, ended, rfl, rfl⟩ := read
  obtain ⟨front, rfl, before⟩ := List.dropPrefix?_eq_some_iff.1 began
  obtain ⟨⟨middle, rfl, between⟩, -⟩ := List.dropInfix?_eq_some_iff.1 parted
  obtain ⟨back, rfl, after⟩ := List.dropSuffix?_eq_some_iff.1 ended
  rw [eq_of_beq before, eq_of_beq between, eq_of_beq after]
  simp only [Item.text, List.append_assoc]

theorem dropPrefix?_text (f : Form) (name value : Text) :
    ((Item.constant name value).text f).dropPrefix? f.before =
      some (name ++ f.between ++ (value ++ f.after)) := by
  refine List.dropPrefix?_eq_some_iff.2 ⟨f.before, ?_, BEq.rfl⟩
  simp only [Item.text, List.append_assoc]

/-- What is written as a constant is read as that constant. -/
theorem constant?_text (sound : f.Sound) (word : name.IsWord) :
    f.constant? ((Item.constant name value).text f) = some (name, value) := by
  have began := dropPrefix?_text f name value
  -- What goes on inside the name would start with a word character.
  have parted : (name ++ f.between ++ (value ++ f.after)).dropInfix? f.between =
      some (name, value ++ f.after) := by
    refine List.dropInfix?_eq_some_iff.2 ⟨⟨f.between, rfl, BEq.rfl⟩, ?_⟩
    intro front middle back same between
    obtain rfl := eq_of_beq between
    rw [List.append_assoc, List.append_assoc] at same
    obtain ⟨more, rfl, -⟩ | ⟨more, rfl, goes_on⟩ := List.append_eq_append_iff.1 same
    · simp
    · cases more with
      | nil => simp
      | cons c more =>
        have first : c ∈ f.between.head? := by
          cases shown : f.between with
          | nil => exact absurd sound.quoted (shown ▸ List.not_mem_nil)
          | cons d rest =>
            rw [shown] at goes_on
            exact congrArg some (List.cons.inj goes_on).1
        exact absurd (word.2 c (by simp)) (by simp [sound.parted c first])
  have ended : (value ++ f.after).dropSuffix? f.after = some value :=
    List.dropSuffix?_eq_some_iff.2 ⟨f.after, rfl, BEq.rfl⟩
  simp only [Form.constant?, began, parted, ended, Option.bind_eq_bind, Option.bind_some,
    Option.pure_def]

/-- Where a text goes on with another there is a first place where it does. -/
theorem exists_dropInfix? (front mark back : Text) :
    ∃ first rest, (front ++ mark ++ back).dropInfix? mark = some (first, rest) ∧
      first.length ≤ front.length := by
  have somewhere : ∃ n, ∃ first rest : Text, first.length = n ∧
      front ++ mark ++ back = first ++ mark ++ rest := ⟨_, front, back, rfl, rfl⟩
  classical
  obtain ⟨first, rest, place, whole⟩ := Nat.find_spec somewhere
  refine ⟨first, rest, List.dropInfix?_eq_some_iff.2 ⟨⟨mark, whole, BEq.rfl⟩, ?_⟩, ?_⟩
  · intro other middle more same alike
    rw [eq_of_beq alike] at same
    rw [place]
    exact Nat.find_min' somewhere ⟨other, more, rfl, same⟩
  · rw [place]
    exact Nat.find_min' somewhere ⟨front, back, rfl, rfl⟩

/-- A text is read as a constant exactly if it is written as one, whatever its name and value are. -/
theorem isSome_constant?_iff :
    (f.constant? body).isSome ↔ ∃ name value, body = (Item.constant name value).text f := by
  constructor
  · intro read
    obtain ⟨c, read⟩ := Option.isSome_iff_exists.1 read
    exact ⟨c.1, c.2, eq_of_constant? read⟩
  · rintro ⟨name, value, rfl⟩
    have began := dropPrefix?_text f name value
    obtain ⟨first, rest, parted, sooner⟩ := exists_dropInfix? name f.between (value ++ f.after)
    obtain ⟨⟨middle, whole, between⟩, -⟩ := List.dropInfix?_eq_some_iff.1 parted
    rw [eq_of_beq between] at whole
    have ended : ∃ more, rest = more ++ f.after := by
      have no_longer : (first ++ f.between).length ≤ (name ++ f.between).length := by
        simpa using sooner
      obtain ⟨more, front, tail⟩ | ⟨more, -, tail⟩ := List.append_eq_append_iff.1 whole
      · rw [front, List.length_append] at no_longer
        have none_left : more = [] := List.length_eq_zero_iff.1 (by omega)
        rw [none_left] at tail
        exact ⟨value, tail.symm⟩
      · exact ⟨more ++ value, by rw [tail, List.append_assoc]⟩
    obtain ⟨more, rfl⟩ := ended
    have cut : (more ++ f.after).dropSuffix? f.after = some more :=
      List.dropSuffix?_eq_some_iff.2 ⟨f.after, rfl, BEq.rfl⟩
    simp only [Form.constant?, began, parted, cut, Option.bind_eq_bind, Option.bind_some,
      Option.pure_def, Option.isSome_some]

/-- Text is no constant if it lacks a mark that every constant has. -/
theorem constant?_eq_none {mark : CodePoint} (marked : mark ∈ f.between) (absent : mark ∉ body) :
    f.constant? body = none := by
  cases read : f.constant? body with
  | none => rfl
  | some c =>
    rw [eq_of_constant? read] at absent
    simp only [Item.text, List.mem_append, not_or] at absent
    exact absurd marked absent.1.1.2

/-- The constant of an item, if it is one. -/
def Item.constant? : Item → Option (Text × Text)
  | constant name value => some (name, value)
  | _ => none

/-- Of plain items the constants are read, and as what they are. -/
theorem constant?_item (sound : f.Sound) {closes : Bool} {item : Item} (plain : item.Plain closes) :
    f.constant? (item.text f) = item.constant? := by
  have unquoted := sound.unquoted
  simp only [List.mem_append, not_or] at unquoted
  obtain ⟨⟨before_group, after_group⟩, close⟩ := unquoted
  cases item with
  | constant name value =>
    have word : name.IsWord ∧ lineFeed ∉ value := plain
    exact constant?_text sound word.1
  | opening name =>
    have outside : CodePoint.ofChar '"' ∉ name := Text.IsWord.not_mem plain (by decide)
    refine constant?_eq_none sound.quoted ?_
    simp only [Item.text, List.mem_append, not_or]
    exact ⟨⟨before_group, outside⟩, after_group⟩
  | closing => exact constant?_eq_none sound.quoted close

end Read

/-! ## Reading source -/

/-- A constant that source declares, with the indentation of its line. -/
structure ListedConstant where
  indentation : Text
  name : Text
  value : Text
deriving DecidableEq

/-- The constant that a line declares behind its indentation. -/
def Form.listed? (f : Form) (line : Text) : Option ListedConstant :=
  (f.constant? (line.dropWhile isIndent)).map fun c => ⟨line.takeWhile isIndent, c.1, c.2⟩

/-- The constants that the lines of source declare. -/
def Form.listing (f : Form) (text : Text) : List ListedConstant :=
  text.lines.filterMap f.listed?

/-- The constants of a tree that `path` leads to, in the order of its walk. Each is indented by one
unit for every class around it, the outer one included. -/
def listed (l : Layout) (path : List Text) (g : Group) : List ListedConstant :=
  (g.walkFrom path).flatMap fun (path, node) =>
    (constantsOf node).map fun c => ⟨(List.replicate (path.length + 1) l.indent).flatten, c.1, c.2⟩

section Listed

variable {l : Layout} {f : Form} {closes : Bool}

/-- What is listed of a line of a declaration. -/
def Line.listed? (l : Layout) (line : Line) : Option ListedConstant :=
  line.item.constant?.map fun c => ⟨line.indentation l, c.1, c.2⟩

theorem listed?_text (fits : f.Fits l) (sound : f.Sound) {line : Line}
    (plain : line.item.Plain closes) : f.listed? (line.text l f) = line.listed? l := by
  rw [Form.listed?, dropWhile_text fits sound plain, takeWhile_text fits sound plain,
    constant?_item sound plain, Line.listed?]

/-- The lines of a tree list its constants. -/
theorem filterMap_linesOfAll (closes : Bool) (path : List Text) (g : Group) :
    (linesOfAll closes (path.length + 1) (members g)).filterMap (Line.listed? l) =
      listed l path g := by
  induction g using Group.byChildren generalizing path with
  | step g ih =>
    have own : ((constantsOf g).map fun c =>
        (⟨path.length + 1, .constant c.1 c.2⟩ : Line)).filterMap (Line.listed? l) =
          (constantsOf g).map fun c =>
            ⟨(List.replicate (path.length + 1) l.indent).flatten, c.1, c.2⟩ := by
      rw [List.filterMap_map]
      exact congrFun List.filterMap_eq_map' _
    have inner : ∀ child ∈ g.children,
        (linesOf closes (path.length + 1) (.group child.name (members child))).filterMap
            (Line.listed? l) = listed l (path ++ [child.name]) child := by
      intro child member
      have below := ih child member (path ++ [child.name])
      rw [List.length_append, List.length_singleton] at below
      rw [← below, linesOf, List.filterMap_append, List.filterMap_cons]
      cases closes <;> simp [Line.listed?, Item.constant?]
    rw [linesOfAll_members, List.filterMap_append, own, listed, Group.walkFrom_eq,
      List.flatMap_cons, List.filterMap_flatMap, List.flatMap_assoc]
    congr 1
    exact List.flatMap_congr inner

/-- A line is no constant if it lacks a mark that every constant has. -/
theorem listed?_eq_none {line : Text} {mark : CodePoint} (marked : mark ∈ f.between)
    (absent : mark ∉ line) : f.listed? line = none := by
  have outside : mark ∉ line.dropWhile isIndent :=
    fun member => absent ((List.dropWhile_sublist isIndent).mem member)
  rw [Form.listed?, constant?_eq_none marked outside]
  rfl

theorem filterMap_spaced (sound : f.Sound) (ls : List Text) :
    (spaced ls).filterMap f.listed? = ls.filterMap f.listed? := by
  have blank : f.listed? [] = none := listed?_eq_none sound.quoted List.not_mem_nil
  induction ls with
  | nil => rfl
  | cons line ls ih =>
    have pair : spaced [line] = [line, []] := rfl
    rw [spaced_cons, pair, List.filterMap_append, ih, List.filterMap_cons, List.filterMap_cons]
    cases shown : f.listed? line <;> simp [blank, shown]

end Listed

/-! ## Constants of files -/

section File

variable {keys : List Text} {typeName text : Text} (worded : ∀ key ∈ keys, Key.Worded key)
  (worded_type : Key.Worded typeName)

include worded in
theorem filterMap_printed {l : Layout} {f : Form} (fits : f.Fits l) (sound : f.Sound) :
    (printed l f (Group.ofKeys keys)).filterMap f.listed? = listed l [] (Group.ofKeys keys) := by
  have plain := plain_lines (plain_of_mem_walk worded) (!f.close.isEmpty) 1
  rw [printed, List.filterMap_map]
  refine Eq.trans ?_ (filterMap_linesOfAll (!f.close.isEmpty) [] _)
  exact List.filterMap_congr fun line member => listed?_text fits sound (plain line member)

include worded_type

/-- No constant is declared above the members of a module. -/
theorem filterMap_moduleLines :
    (moduleLines (Key.splitQualified typeName).1 (Key.splitQualified typeName).2).filterMap
      pythonForm.listed? = [] := by
  have colon := worded_type.not_mem_splitQualified (c := ':') (by decide) (by decide)
  have quote := worded_type.not_mem_splitQualified (c := '"') (by decide) (by decide)
  have notes : ∀ line ∈ noteLines, CodePoint.ofChar ':' ∉ line := by decide
  have opening :
      CodePoint.ofChar '"' ∉ ("class " ++ (Key.splitQualified typeName).2 ++ ":" : Text) := by
    simp only [List.mem_append, not_or]
    exact ⟨⟨by decide, quote.2⟩, by decide⟩
  rw [List.filterMap_eq_nil_iff]
  apply forall_mem_moduleLines
  · exact listed?_eq_none (by decide) (not_mem_titleLine (by decide) colon.1)
  · exact fun line member => listed?_eq_none (by decide) (notes line member)
  · exact listed?_eq_none (by decide) opening

/-- No constant is declared above the members of a class. -/
theorem filterMap_classLines :
    (classLines (Key.splitQualified typeName).1 (Key.splitQualified typeName).2).filterMap
      javaForm.listed? = [] := by
  have quote := worded_type.not_mem_splitQualified (c := '"') (by decide) (by decide)
  have unquoted := not_mem_classLines (by decide) quote.1 quote.2
  rw [List.filterMap_eq_nil_iff]
  exact fun line member => listed?_eq_none (by decide) (unquoted line member)

include worded

/-- The constants that a module declares. -/
theorem listing_python (rendered : render python (Group.ofKeys keys) typeName = .ok text) :
    pythonForm.listing text = listed python [] (Group.ofKeys keys) := by
  have constants := filterMap_printed worded pythonForm_fits pythonForm_sound
  rw [Form.listing, lines_of_render_python worded worded_type rendered, List.filterMap_append,
    filterMap_moduleLines worded_type, List.nil_append, ← constants]
  cases shown : printed python pythonForm (Group.ofKeys keys) with
  | nil => decide
  | cons line ls => exact filterMap_spaced pythonForm_sound _

/-- The constants that a class declares. -/
theorem listing_java (rendered : render java (Group.ofKeys keys) typeName = .ok text) :
    javaForm.listing text = listed java [] (Group.ofKeys keys) := by
  have ending : closingLines.filterMap javaForm.listed? = [] := by decide
  rw [Form.listing, lines_of_render_java worded worded_type rendered, List.filterMap_append,
    List.filterMap_append, filterMap_classLines worded_type, ending,
    filterMap_spaced javaForm_sound, filterMap_printed worded javaForm_fits javaForm_sound,
    List.nil_append, List.append_nil]

end File

/-- What a constant is called and what it says, wherever it stands. -/
def ListedConstant.declared (c : ListedConstant) : Text × Text :=
  (c.name, c.value)

theorem map_declared_listed (l : Layout) (g : Group) :
    (listed l [] g).map ListedConstant.declared = g.walk.flatMap constantsOf := by
  rw [listed, ← Group.map_snd_walkFrom [], List.map_flatMap, List.flatMap_map]
  congr 1
  funext ⟨path, node⟩
  rw [List.map_map]
  exact List.map_id _

/-- **Source lists the constants of its tree.** For keys and types of plain names, the lines of
source that declare constants are those of the constants of the tree, group by group in the order of
a walk, each indented by one unit for every class around it; and they are the same in all languages.
A line declares a constant if it looks like one behind its blanks, with any name and any value. -/
theorem listing_render {keys : List Text} {typeName : Text}
    (worded : ∀ key ∈ keys, Key.Worded key) (worded_type : Key.Worded typeName) :
    ∃ text, render java (Group.ofKeys keys) typeName = .ok text ∧
      javaForm.listing text = listed java [] (Group.ofKeys keys) ∧
      (∀ script, render python (Group.ofKeys keys) typeName = .ok script →
        pythonForm.listing script = listed python [] (Group.ofKeys keys) ∧
          (pythonForm.listing script).map ListedConstant.declared =
            (javaForm.listing text).map ListedConstant.declared) ∧
      (∀ l, (listed l [] (Group.ofKeys keys)).map ListedConstant.declared =
        (Group.ofKeys keys).walk.flatMap constantsOf) ∧
      ((Group.ofKeys keys).walkFrom []).map Prod.snd = (Group.ofKeys keys).walk ∧
      (∀ path node, (path, node) ∈ (Group.ofKeys keys).walkFrom [] →
        (Group.ofKeys keys).Reaches path node) ∧
      ∀ (f : Form) (line : Text), (f.listed? line).isSome ↔
        ∃ name value, line.dropWhile isIndent = (Item.constant name value).text f := by
  obtain ⟨text, rendered⟩ := exists_render_eq_ok (l := java) rfl (Group.ofKeys keys) typeName
  have class_lines := listing_java worded worded_type rendered
  refine ⟨text, rendered, class_lines, fun script shown => ?_, fun l => map_declared_listed l _,
    Group.map_snd_walkFrom [] _, fun path node met => ?_, fun f line => ?_⟩
  · have module_lines := listing_python worded worded_type shown
    refine ⟨module_lines, ?_⟩
    rw [module_lines, class_lines, map_declared_listed, map_declared_listed]
  · obtain ⟨names, rfl, reached⟩ := Group.reaches_of_mem_walkFrom met
    exact reached
  · rw [Form.listed?, Option.isSome_map]
    exact isSome_constant?_iff

/-- Keys of three groups, of which one is inside another. -/
def nestedKeys : List Text :=
  ["a.b.c", "d", "a.e"].map Text.ofString

theorem listing_render_nestedKeys :
    (∀ key ∈ nestedKeys, Key.Worded key) ∧ Key.Worded "config.Keys" ∧
      ∃ script, render python (Group.ofKeys nestedKeys) "config.Keys" = .ok script ∧
        pythonForm.listing script =
          [⟨"    ", "d", "d"⟩, ⟨"        ", "_ROOT", "a"⟩, ⟨"        ", "e", "a.e"⟩,
            ⟨"            ", "_ROOT", "a.b"⟩, ⟨"            ", "c", "a.b.c"⟩] := by
  have worded : ∀ key ∈ nestedKeys, Key.Worded key := by decide +kernel
  have worded_type : Key.Worded "config.Keys" := by decide +kernel
  have accepted : (render python (Group.ofKeys nestedKeys) "config.Keys").toOption.isSome = true := by
    decide +kernel
  have constants : listed python [] (Group.ofKeys nestedKeys) =
      [⟨"    ", "d", "d"⟩, ⟨"        ", "_ROOT", "a"⟩, ⟨"        ", "e", "a.e"⟩,
        ⟨"            ", "_ROOT", "a.b"⟩, ⟨"            ", "c", "a.b.c"⟩] := by
    decide +kernel
  obtain ⟨text, -, -, listing, -⟩ := listing_render worded worded_type
  obtain ⟨script, rendered⟩ := exists_eq_ok_of_toOption accepted
  exact ⟨worded, worded_type, script, rendered, (listing script rendered).1.trans constants⟩

end Source

end DottedKeys
