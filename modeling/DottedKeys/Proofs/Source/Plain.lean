import DottedKeys.Proofs.Disk.Path
import DottedKeys.Proofs.Source.Collision
import DottedKeys.Proofs.Source.Lines

/-!
# Source of plain names

Names of ASCII letters, digits and underscores are legal in every language, and none of the texts that
declarations are made of can be mistaken for one. `plain_lines` says what stands in the lines of a
tree of such names, and `lines_of_render_python` and `lines_of_render_java` which lines its source has.
-/

namespace DottedKeys

/-- A letter, a digit or the underscore, of those that ASCII has. -/
def CodePoint.isWord (c : CodePoint) : Bool :=
  (0x30 ≤ c.val && c.val ≤ 0x39) || (0x41 ≤ c.val && c.val ≤ 0x5A) ||
    (0x61 ≤ c.val && c.val ≤ 0x7A) || c.val = 0x5F

/-- A name of ASCII letters, digits and underscores. -/
def Text.IsWord (t : Text) : Prop :=
  t ≠ [] ∧ ∀ c ∈ t, c.isWord = true

instance (t : Text) : Decidable t.IsWord :=
  inferInstanceAs (Decidable (_ ∧ _))

theorem Text.IsWord.not_mem {t : Text} (word : t.IsWord) {c : CodePoint} (other : c.isWord = false) :
    c ∉ t := by
  intro member
  rw [word.2 c member] at other
  contradiction

/-- A dotted name of which every part is a word. -/
def Key.Worded (key : Text) : Prop :=
  ∀ name ∈ key.splitOn Key.dot, name.IsWord

instance (key : Text) : Decidable (Key.Worded key) :=
  inferInstanceAs (Decidable (∀ name ∈ key.splitOn Key.dot, _))

namespace Key

variable {key : Text}

theorem Worded.solid (worded : Worded key) : [] ∉ key.splitOn dot :=
  fun bare => (worded [] bare).1 rfl

/-- Nothing but word characters and dots stands in a dotted name of words. -/
theorem Worded.not_mem (worded : Worded key) {c : CodePoint} (apart : c ≠ dot)
    (other : c.isWord = false) : c ∉ key := by
  intro member
  obtain ⟨name, among, inside⟩ := Text.exists_piece_of_mem member apart
  exact (worded name among).not_mem other inside

theorem mem_of_mem_splitQualified {c : CodePoint}
    (member : c ∈ (splitQualified key).1 ∨ c ∈ (splitQualified key).2) : c ∈ key := by
  unfold splitQualified at member
  cases cut : key.splitLast? dot with
  | none => simpa [cut] using member
  | some parts =>
    rw [Text.eq_of_splitLast? cut]
    simp only [cut, Option.getD_some] at member
    rcases member with before | after
    · exact List.mem_append_left _ before
    · exact List.mem_append_right _ (List.mem_cons_of_mem dot after)

/-- The same goes for the two parts of a qualified name of words. -/
theorem Worded.not_mem_splitQualified (worded : Worded key) {c : CodePoint} (apart : c ≠ dot)
    (other : c.isWord = false) : c ∉ (splitQualified key).1 ∧ c ∉ (splitQualified key).2 := by
  have outside := worded.not_mem apart other
  exact ⟨fun member => outside (mem_of_mem_splitQualified (.inl member)),
    fun member => outside (mem_of_mem_splitQualified (.inr member))⟩

end Key

namespace Source

open DottedKeys.Text

/-! ## Trees of plain names -/

/-- A group whose fields and children have words for names, on a path of one line. -/
structure Plain (g : Group) : Prop where
  qualifier : lineFeed ∉ g.qualifier
  fields : ∀ field ∈ g.fields, field.IsWord
  names : ∀ child ∈ g.children, child.name.IsWord

/-- The groups of a tree of keys with plain names are plain. -/
theorem plain_of_mem_walk {keys : List Text} (worded : ∀ key ∈ keys, Key.Worded key) :
    ∀ node ∈ (Group.ofKeys keys).walk, Plain node := by
  intro node met
  have solid : ∀ key ∈ keys, [] ∉ key.splitOn Key.dot := fun key given => (worded key given).solid
  obtain ⟨path, reached⟩ := Group.mem_walk_iff.1 met
  have shaped := reached.handed Group.Shaped.child (Group.shaped_ofKeys keys)
  have own := (reached.handed Group.Qualified.child (Group.qualified_ofKeys keys)).own
  rw [List.nil_append] at shaped own
  have passed : ∀ names, names ≠ [] → (∃ key ∈ keys, names <+: Key.path key) →
      ∀ name ∈ names, name.IsWord := by
    rintro names - ⟨key, given, rest, whole⟩ name member
    apply worded key given
    rw [Key.splitOn_eq_path_field (solid key given), ← whole]
    simp [member]
  constructor
  · intro broken
    rw [own] at broken
    rcases Text.mem_intercalate broken with same | ⟨name, member, inside⟩
    · exact absurd same (by decide)
    · have some_path : path ≠ [] := List.ne_nil_of_mem member
      have through := ((Group.shaped_ofKeys keys).reaches_iff.1 ⟨node, reached⟩).resolve_left some_path
      exact (passed path some_path through name member).not_mem (by decide) inside
  · intro field held
    obtain ⟨key, given, -, rfl, -⟩ := exists_key_of_mem_fields solid reached held
    apply worded key given
    rw [Key.splitOn_eq_path_field (solid key given)]
    simp
  · intro child member
    have through := shaped.mem_names.1 (List.mem_map_of_mem member)
    exact passed _ (by simp) through child.name (by simp)

/-! ## Lines of plain trees -/

/-- The constants that a group declares, with their values. -/
def constantsOf (g : Group) : List (Text × Text) :=
  (if g.isRoot then [] else [(rootConstant, g.qualifier)]) ++
    g.fields.map fun field => (field, g.fullKey field)

theorem linesOfAll_append (closes : Bool) (depth : Nat) (ds more : List Declaration) :
    linesOfAll closes depth (ds ++ more) = linesOfAll closes depth ds ++ linesOfAll closes depth more := by
  induction ds with
  | nil => rfl
  | cons d ds ih => rw [List.cons_append, linesOfAll, linesOfAll, ih, List.append_assoc]

theorem linesOfAll_constants (closes : Bool) (depth : Nat) (constants : List (Text × Text)) :
    linesOfAll closes depth (constants.map fun c => .constant c.1 c.2) =
      constants.map fun c => ⟨depth, .constant c.1 c.2⟩ := by
  induction constants with
  | nil => rfl
  | cons c constants ih => rw [List.map_cons, linesOfAll, linesOf, ih, List.map_cons]; rfl

theorem linesOfAll_groups (closes : Bool) (depth : Nat) (groups : List Group) :
    linesOfAll closes depth (groups.map fun g => .group g.name (members g)) =
      groups.flatMap fun g => linesOf closes depth (.group g.name (members g)) := by
  induction groups with
  | nil => rfl
  | cons g rest ih => rw [List.map_cons, linesOfAll, ih, List.flatMap_cons]

theorem members_eq_constantsOf (g : Group) :
    members g = (constantsOf g).map (fun c => .constant c.1 c.2) ++
      g.children.map fun child => .group child.name (members child) := by
  rw [members_eq, constantsOf, List.map_append, List.map_map]
  split <;> rfl

/-- The lines of a group are those of its constants and then those of the groups in it. -/
theorem linesOfAll_members (closes : Bool) (depth : Nat) (g : Group) :
    linesOfAll closes depth (members g) =
      (constantsOf g).map (fun c => ⟨depth, .constant c.1 c.2⟩) ++
        g.children.flatMap fun child => linesOf closes depth (.group child.name (members child)) := by
  rw [members_eq_constantsOf, linesOfAll_append, linesOfAll_constants, linesOfAll_groups]

/-- What stands in a line: words for names, and a value of one line. Only some languages have lines
that close groups. -/
def Item.Plain (closes : Bool) : Item → Prop
  | constant name value => name.IsWord ∧ lineFeed ∉ value
  | opening name => name.IsWord
  | closing => closes = true

theorem plain_of_mem_constantsOf {g : Group} (plain : Plain g) :
    ∀ c ∈ constantsOf g, c.1.IsWord ∧ lineFeed ∉ c.2 := by
  intro c member
  rcases List.mem_append.1 member with own | declared
  · split at own
    · contradiction
    · rw [List.mem_singleton.1 own]
      have named : rootConstant.IsWord := by decide
      exact ⟨named, plain.qualifier⟩
  · obtain ⟨field, held, rfl⟩ := List.mem_map.1 declared
    have word := plain.fields field held
    have unbroken : lineFeed ∉ field := word.not_mem (by decide)
    refine ⟨word, ?_⟩
    dsimp only
    rw [Group.fullKey]
    split
    · exact unbroken
    · simp only [List.mem_append, List.mem_cons, not_or]
      exact ⟨plain.qualifier, by decide, unbroken⟩

/-- The lines of a tree of plain groups are plain. -/
theorem plain_lines {g : Group} (plain : ∀ node ∈ g.walk, Plain node) (closes : Bool) (depth : Nat) :
    ∀ line ∈ linesOfAll closes depth (members g), line.item.Plain closes := by
  induction g using Group.byChildren generalizing depth with
  | step g ih =>
    rw [Group.walk_eq] at plain
    have here := plain g List.mem_cons_self
    rw [linesOfAll_members]
    intro line member
    rcases List.mem_append.1 member with constant | inner
    · obtain ⟨c, among, rfl⟩ := List.mem_map.1 constant
      exact plain_of_mem_constantsOf here c among
    · obtain ⟨child, among, inside⟩ := List.mem_flatMap.1 inner
      rw [linesOf, List.cons_append, List.mem_cons, List.mem_append] at inside
      rcases inside with rfl | inside | ends
      · exact here.names child among
      · refine ih child among (fun node below => plain node ?_) (depth + 1) line inside
        exact List.mem_cons_of_mem g (Group.mem_walkAll.2 ⟨child, among, below⟩)
      · cases closes with
        | true => rw [List.mem_singleton.1 ends]; rfl
        | false => contradiction

/-! ## Lines of source -/

/-- A form in which the texts around plain names cannot be mistaken for them, nor for each other:
constants have a quote where nothing else has one, and groups a blank before their name. -/
structure Form.Sound (f : Form) : Prop where
  unbroken : lineFeed ∉ f.before ++ f.between ++ f.after ++ f.beforeGroup ++ f.afterGroup ++ f.close
  flush : ∀ t ∈ [f.before, f.beforeGroup, f.close], ∀ c ∈ t.head?, isIndent c = false
  parted : ∀ c ∈ f.between.head?, c.isWord = false
  quoted : CodePoint.ofChar '"' ∈ f.between
  unquoted : CodePoint.ofChar '"' ∉ f.beforeGroup ++ f.afterGroup ++ f.close
  spaced : CodePoint.ofChar ' ' ∈ f.beforeGroup ∧ CodePoint.ofChar ' ' ∉ f.close

theorem pythonForm_sound : pythonForm.Sound := by
  constructor <;> decide

theorem javaForm_sound : javaForm.Sound := by
  constructor <;> decide

section Text

variable {l : Layout} {f : Form} {closes : Bool} {line : Line}

theorem isIndent_of_mem_indentation (fits : f.Fits l) {c : CodePoint}
    (member : c ∈ line.indentation l) : isIndent c = true := by
  obtain ⟨unit, among, inside⟩ := List.mem_flatten.1 member
  rw [List.eq_of_mem_replicate among] at inside
  exact fits.indented.2 c inside

theorem not_isIndent_of_isWord {c : CodePoint} (word : c.isWord = true) : isIndent c = false := by
  by_contra blank
  rw [Bool.not_eq_false, isIndent, Bool.or_eq_true, decide_eq_true_eq, decide_eq_true_eq] at blank
  rcases blank with rfl | rfl <;> exact absurd word (by decide)

theorem unbroken_text (fits : f.Fits l) (sound : f.Sound) (plain : line.item.Plain closes) :
    lineFeed ∉ line.text l f := by
  have solid := sound.unbroken
  simp only [List.mem_append, not_or] at solid
  obtain ⟨⟨⟨⟨⟨before, between⟩, after⟩, before_group⟩, after_group⟩, close⟩ := solid
  have clear : lineFeed ∉ line.indentation l := by
    intro member
    exact absurd (isIndent_of_mem_indentation fits member) (by decide)
  obtain ⟨depth, item⟩ := line
  rw [Line.text, List.mem_append, not_or]
  refine ⟨clear, ?_⟩
  cases item with
  | constant name value =>
    obtain ⟨word, unbroken⟩ : name.IsWord ∧ lineFeed ∉ value := plain
    have unbroken_name : lineFeed ∉ name := word.not_mem (by decide)
    simp only [Item.text, List.mem_append, not_or]
    exact ⟨⟨⟨⟨before, unbroken_name⟩, between⟩, unbroken⟩, after⟩
  | opening name =>
    have unbroken_name : lineFeed ∉ name := Text.IsWord.not_mem plain (by decide)
    simp only [Item.text, List.mem_append, not_or]
    exact ⟨⟨before_group, unbroken_name⟩, after_group⟩
  | closing => exact close

/-- Only blanks that a line is indented by stand at its start. -/
theorem flush_text (sound : f.Sound) {item : Item} (plain : item.Plain closes) :
    ∀ c ∈ (item.text f).head?, isIndent c = false := by
  have onwards : ∀ s t : Text, (s = [] → ∀ c ∈ t.head?, isIndent c = false) →
      (∀ c ∈ s.head?, isIndent c = false) → ∀ c ∈ (s ++ t).head?, isIndent c = false := by
    intro s t next first
    cases s with
    | nil => exact next rfl
    | cons c s => exact first
  have flush := sound.flush
  simp only [List.forall_mem_cons] at flush
  obtain ⟨before, before_group, close, -⟩ := flush
  cases item with
  | constant name value =>
    obtain ⟨⟨some_name, word⟩, -⟩ : name.IsWord ∧ lineFeed ∉ value := plain
    simp only [Item.text, List.append_assoc]
    refine onwards _ _ (fun _ => onwards _ _ (fun bare => absurd bare some_name) ?_) before
    intro c first
    exact not_isIndent_of_isWord (word c (List.mem_of_mem_head? first))
  | opening name =>
    simp only [Item.text, List.append_assoc]
    refine onwards _ _ (fun bare => ?_) before_group
    exact absurd sound.spaced.1 (bare ▸ List.not_mem_nil)
  | closing => exact close

/-- The blanks at the start of a line are its indentation. -/
theorem takeWhile_text (fits : f.Fits l) (sound : f.Sound) (plain : line.item.Plain closes) :
    (line.text l f).takeWhile isIndent = line.indentation l := by
  rw [Line.text, List.takeWhile_append_of_pos fun c member => isIndent_of_mem_indentation fits member]
  have flush := flush_text sound plain
  cases shown : line.item.text f with
  | nil => simp
  | cons c body => simp [flush c (by simp [shown])]

/-- Behind the blanks at the start of a line stands its item. -/
theorem dropWhile_text (fits : f.Fits l) (sound : f.Sound) (plain : line.item.Plain closes) :
    (line.text l f).dropWhile isIndent = line.item.text f := by
  rw [Line.text, List.dropWhile_append_of_pos fun c member => isIndent_of_mem_indentation fits member]
  have flush := flush_text sound plain
  cases shown : line.item.text f with
  | nil => rfl
  | cons c body => simp [flush c (by simp [shown])]

end Text

/-- Source that is not refused has a text. -/
theorem exists_eq_ok_of_toOption {source : Except Fault Text}
    (accepted : source.toOption.isSome = true) : ∃ text, source = .ok text := by
  cases source with
  | error fault => contradiction
  | ok text => exact ⟨text, rfl⟩

/-- The lines that the members of a tree are printed in. -/
def printed (l : Layout) (f : Form) (root : Group) : List Text :=
  (linesOfAll (!f.close.isEmpty) 1 (members root)).map (Line.text l f)

section Render

variable {keys : List Text} {typeName text : Text} (worded : ∀ key ∈ keys, Key.Worded key)
  (worded_type : Key.Worded typeName)
include worded

theorem unbroken_printed {l : Layout} {f : Form} (fits : f.Fits l) (sound : f.Sound) :
    ∀ line ∈ printed l f (Group.ofKeys keys), lineFeed ∉ line := by
  intro text member
  obtain ⟨line, among, rfl⟩ := List.mem_map.1 member
  exact unbroken_text fits sound (plain_lines (plain_of_mem_walk worded) _ 1 line among)

theorem eq_file_of_worded {l : Layout} {f : Form} (fits : f.Fits l)
    (rendered : render l (Group.ofKeys keys) typeName = .ok text) :
    text = l.file (Key.splitQualified typeName).1 (Key.splitQualified typeName).2
      (unlines (spaced (printed l f (Group.ofKeys keys)))) := by
  rw [eq_file_of_render (fun key given => (worded key given).solid) rendered]
  have lines := printAll_eq fits 1 (members (Group.ofKeys keys))
  exact congrArg _ lines

/-- The members of a module are lines that end in a quote or a colon. -/
theorem exists_getLast?_python : ∀ line ∈ printed python pythonForm (Group.ofKeys keys),
    ∃ last ∈ ['"', ':'].map CodePoint.ofChar, line.getLast? = some last := by
  intro text member
  obtain ⟨⟨depth, item⟩, among, rfl⟩ := List.mem_map.1 member
  have plain := plain_lines (plain_of_mem_walk worded) _ 1 _ among
  cases item with
  | constant name value => exact ⟨quote, List.mem_cons_self, getLast?_constant rfl⟩
  | opening name =>
    refine ⟨_, List.mem_cons_of_mem _ List.mem_cons_self, ?_⟩
    rw [Line.text, Item.text, ← List.append_assoc]
    exact List.getLast?_concat
  | closing => contradiction

include worded_type

/-- The lines of a file with one class. -/
theorem lines_of_render_java (rendered : render java (Group.ofKeys keys) typeName = .ok text) :
    text.lines = classLines (Key.splitQualified typeName).1 (Key.splitQualified typeName).2 ++
      spaced (printed java javaForm (Group.ofKeys keys)) ++ closingLines := by
  have unbroken := worded_type.not_mem_splitQualified (c := lineFeed) (by decide) (by decide)
  rw [eq_file_of_worded worded javaForm_fits rendered]
  exact lines_java_file unbroken.1 unbroken.2 (unbroken_printed worded javaForm_fits javaForm_sound)

/-- The lines of a module. -/
theorem lines_of_render_python (rendered : render python (Group.ofKeys keys) typeName = .ok text) :
    text.lines = moduleLines (Key.splitQualified typeName).1 (Key.splitQualified typeName).2 ++
      if (printed python pythonForm (Group.ofKeys keys)).isEmpty then idleLines
      else spaced (printed python pythonForm (Group.ofKeys keys)) := by
  have unbroken := worded_type.not_mem_splitQualified (c := lineFeed) (by decide) (by decide)
  rw [eq_file_of_worded worded pythonForm_fits rendered]
  refine lines_python_file unbroken.1 unbroken.2
    (unbroken_printed worded pythonForm_fits pythonForm_sound) fun line member => ?_
  obtain ⟨last, mark, ends⟩ := exists_getLast?_python worded line member
  obtain ⟨front, rfl⟩ := List.getLast?_eq_some_iff.1 ends
  have visible : ∀ last ∈ ['"', ':'].map CodePoint.ofChar, last.isSpace = false := by decide
  exact ⟨front, last, rfl, visible last mark⟩

end Render

end Source

end DottedKeys
