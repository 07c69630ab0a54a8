import DottedKeys.Proofs.Source.Listing

/-!
# Source of any tree

Names, fields and paths of a tree may be empty or blank or go over several lines, and a group below the
root may be written out as the root is. In a language without lines that close groups, source still
consists of the lines that each group has of its own, in the order of a walk
(`eq_written_of_renderGroup`). The last of them declares a constant
(`exists_constant_of_mem_getLast?`), so it ends in a quote, and `trimmed_body` says that nothing but the
blank line after it is cut off.
-/

namespace DottedKeys.Source

open DottedKeys.Text

/-- The lines that a group has of its own: the one that opens it, unless it is written out as the root
is, and one level deeper those of its constants. -/
def ownLines (depth : Nat) (g : Group) : List Line :=
  (if g.isRoot then [] else [⟨depth, .opening g.name⟩]) ++
    (constantsOf g).map fun c => ⟨depth + 1, .constant c.1 c.2⟩

/-- The lines of a tree that `path` leads to, in the order of its walk. -/
def treeLines (path : List Text) (g : Group) : List Line :=
  (g.walkFrom path).flatMap fun (path, node) => ownLines path.length node

theorem treeLines_eq (path : List Text) (g : Group) :
    treeLines path g = ownLines path.length g ++
      g.children.flatMap fun child => treeLines (path ++ [child.name]) child := by
  rw [treeLines, Group.walkFrom_eq, List.flatMap_cons, List.flatMap_assoc]
  rfl

/-! ## Text of a tree -/

/-- Lines, written out with an empty line after each. -/
def written (l : Layout) (f : Form) (lines : List Line) : Text :=
  lines.flatMap fun line => line.text l f ++ [lineFeed, lineFeed]

theorem written_append (l : Layout) (f : Form) (lines more : List Line) :
    written l f (lines ++ more) = written l f lines ++ written l f more :=
  List.flatMap_append

section Render

variable {l : Layout} {f : Form}

theorem written_singleton (depth : Nat) (item : Item) :
    written l f [⟨depth, item⟩] = indentation l depth ++ unlines (spaced [item.text f]) := by
  rw [← unlines_line, unlines_spaced_singleton, written, List.flatMap_singleton]

/-- What opens a group is its line and that of the constant for its path. -/
theorem opening_eq_written (fits : f.Fits l) (depth : Nat) (g : Group) :
    opening l depth g = written l f (if g.isRoot then [] else
      [⟨depth, .opening g.name⟩, ⟨depth + 1, .constant rootConstant g.qualifier⟩]) := by
  rw [opening]
  cases g.isRoot with
  | true => rfl
  | false =>
    have lines := written_append l f [⟨depth, .opening g.name⟩]
      [⟨depth + 1, .constant rootConstant g.qualifier⟩]
    rw [written_singleton, written_singleton, ← fits.opening, ← fits.constant, ← List.append_assoc]
      at lines
    exact lines.symm

theorem constants_eq_written (fits : f.Fits l) (depth : Nat) (g : Group) :
    constants l depth g = written l f
      (g.fields.map fun field => ⟨depth + 1, .constant field (g.fullKey field)⟩) := by
  rw [constants, written, List.flatMap_map]
  refine List.flatMap_congr fun field _ => ?_
  have line := written_singleton (l := l) (f := f) (depth + 1) (.constant field (g.fullKey field))
  rw [written, List.flatMap_singleton, ← fits.constant] at line
  exact line.symm

/-- What stands before the groups inside a group are its own lines. -/
theorem opening_append_constants (fits : f.Fits l) (depth : Nat) (g : Group) :
    opening l depth g ++ constants l depth g = written l f (ownLines depth g) := by
  rw [opening_eq_written fits, constants_eq_written fits, ← written_append, ownLines, constantsOf]
  cases g.isRoot <;> simp [Function.comp_def]

theorem written_eq_nil_iff {lines : List Line} : written l f lines = [] ↔ lines = [] := by
  cases lines <;> simp [written]

/-- A tree is rendered as its lines if no line closes a group. -/
theorem eq_written_of_renderGroup (fits : f.Fits l) (unclosed : l.closing = []) (path : List Text)
    {g : Group} {text : Text} (rendered : renderGroup l path.length g = .ok text) :
    text = written l f (treeLines path g) := by
  induction g using Group.byChildren generalizing path text with
  | step g ih =>
    obtain ⟨-, inner, below, whole⟩ := of_renderGroup rendered
    have nested : inner =
        g.children.flatMap fun child => written l f (treeLines (path ++ [child.name]) child) := by
      refine eq_flatMap_of_renderAll (fun child member part shown => ?_) below
      refine ih child member _ ?_
      rw [List.length_append, List.length_singleton]
      exact shown
    have open_ended : closing l path.length g = [] := by simp [closing, unclosed]
    rw [whole, nested, open_ended, List.append_nil, opening_append_constants fits, treeLines_eq,
      written_append]
    congr 1
    exact List.flatMap_assoc.symm

end Render

/-! ## The last line -/

theorem constantsOf_eq_nil_iff {g : Group} :
    constantsOf g = [] ↔ g.isRoot = true ∧ g.fields = [] := by
  rw [constantsOf, List.append_eq_nil_iff, List.map_eq_nil_iff]
  cases g.isRoot <;> simp

/-- A group has no lines of its own exactly if it has no constants, even if it is nested. -/
theorem ownLines_eq_nil_iff {depth : Nat} {g : Group} :
    ownLines depth g = [] ↔ g.isRoot = true ∧ g.fields = [] := by
  rw [ownLines, List.append_eq_nil_iff, List.map_eq_nil_iff, constantsOf_eq_nil_iff]
  cases g.isRoot <;> simp

theorem treeLines_eq_nil_iff {path : List Text} {g : Group} :
    treeLines path g = [] ↔ ∀ node ∈ g.walk, node.isRoot = true ∧ node.fields = [] := by
  rw [treeLines, List.flatMap_eq_nil_iff, ← Group.map_snd_walkFrom path, List.forall_mem_map]
  exact forall₂_congr fun _ _ => ownLines_eq_nil_iff

/-- The line that opens a group is not its last. -/
theorem exists_constant_of_mem_ownLines {depth : Nat} {g : Group} :
    ∀ line ∈ (ownLines depth g).getLast?, ∃ name value, line.item = .constant name value := by
  intro line last
  cases declared : constantsOf g using List.reverseRecOn with
  | nil =>
    rw [ownLines_eq_nil_iff.2 (constantsOf_eq_nil_iff.1 declared)] at last
    contradiction
  | append_singleton front c =>
    rw [ownLines, declared, List.map_append, ← List.append_assoc, List.map_singleton,
      List.getLast?_concat, Option.mem_some_iff] at last
    exact ⟨c.1, c.2, by rw [← last]⟩

/-- The last line of a tree declares a constant. -/
theorem exists_constant_of_mem_getLast? {path : List Text} {g : Group} :
    ∀ line ∈ (treeLines path g).getLast?, ∃ name value, line.item = .constant name value := by
  intro line last
  rw [treeLines, List.getLast?_flatMap, Option.mem_def] at last
  obtain ⟨⟨path, node⟩, -, own⟩ := List.exists_of_findSome?_eq_some last
  exact exists_constant_of_mem_ownLines line own

/-! ## The file -/

/-- What is written of a tree is nothing, or it ends in a quote and two line feeds. -/
theorem written_treeLines (path : List Text) (g : Group) :
    treeLines path g = [] ∨ ∃ front, written python pythonForm (treeLines path g) =
      front ++ [quote] ++ [lineFeed, lineFeed] := by
  refine (List.eq_nil_or_concat' (treeLines path g)).imp_right ?_
  rintro ⟨others, line, whole⟩
  have last : line ∈ (treeLines path g).getLast? := by
    rw [whole]
    exact List.getLast?_concat
  obtain ⟨name, value, declared⟩ := exists_constant_of_mem_getLast? line last
  obtain ⟨shown, ends⟩ := List.getLast?_eq_some_iff.1 (getLast?_constant declared)
  refine ⟨written python pythonForm others ++ shown, ?_⟩
  rw [whole, written_append, written, written, List.flatMap_singleton, ends]
  simp only [List.append_assoc]

/-- **Only a blank line is trimmed.** Where a tree of any names and fields is not refused, the members
of its module are written as the lines of the tree. They are empty exactly if every group is written out
as the root is and has no fields, and then a statement that does nothing stands in their place.
Otherwise they end in a quote and two line feeds, and all of them but the last line feed is in the
module. -/
theorem trimmed_body {root : Group} {typeName text : Text}
    (rendered : render python root typeName = .ok text) :
    ∃ body trimmed, renderGroup python 0 root = .ok body ∧
      text = moduleHeader (Key.splitQualified typeName).1 (Key.splitQualified typeName).2 ++ trimmed ∧
      body = written python pythonForm (treeLines [] root) ∧
      (body = [] ↔ ∀ node ∈ root.walk, node.isRoot = true ∧ node.fields = []) ∧
      (body.isWhite = true ↔ body = []) ∧
      ((body = [] ∧ trimmed = "    pass\n") ∨
        (("\"\n\n" : Text) <:+ body ∧ trimmed = body.dropLast)) := by
  obtain ⟨body, shown, whole⟩ := of_render rendered
  have lines : body = written python pythonForm (treeLines [] root) :=
    eq_written_of_renderGroup pythonForm_fits rfl [] shown
  have bare : body = [] ↔ ∀ node ∈ root.walk, node.isRoot = true ∧ node.fields = [] := by
    rw [lines, written_eq_nil_iff, treeLines_eq_nil_iff]
  rcases written_treeLines [] root with no_line | ⟨front, ends⟩
  · obtain rfl : body = [] := by rw [lines, no_line]; rfl
    rw [python_file_nil] at whole
    exact ⟨[], _, shown, whole, lines, bare, iff_of_true rfl rfl, .inl ⟨rfl, rfl⟩⟩
  · rw [← lines] at ends
    have visible : quote.isSpace = false := by decide
    have dark := isWhite_append visible front [lineFeed, lineFeed]
    have feeds : ("\"\n\n" : Text) = [quote] ++ [lineFeed, lineFeed] := rfl
    rw [ends, python_file_append visible] at whole
    rw [← ends] at dark
    have some_body : body ≠ [] := by
      rintro rfl
      contradiction
    refine ⟨body, _, shown, whole, lines, bare, ?_, .inr ⟨⟨front, ?_⟩, ?_⟩⟩
    · rw [dark]
      exact iff_of_false Bool.false_ne_true some_body
    · rw [ends, feeds, List.append_assoc]
    · rw [ends, List.dropLast_append_of_ne_nil (by simp)]
      rfl

/-- A tree with blank names, a field that goes over two lines in a group that is written out as the root
is, and such a group at the end that holds nothing. -/
def blankTree : Group :=
  ⟨[], [], [], [⟨[], "a", [" \n"], []⟩, ⟨" ", "\t", [], [⟨[], [], [], []⟩]⟩]⟩

theorem trimmed_body_blankTree :
    ∃ text body, render python blankTree "Keys" = .ok text ∧
      renderGroup python 0 blankTree = .ok body ∧ ("\"\n\n" : Text) <:+ body ∧
      text = moduleHeader [] "Keys" ++ body.dropLast := by
  have accepted : (render python blankTree "Keys").toOption.isSome = true := by decide +kernel
  have declares : ¬ ∀ node ∈ blankTree.walk, node.isRoot = true ∧ node.fields = [] := by
    decide +kernel
  have named : Key.splitQualified "Keys" = ([], ("Keys" : Text)) := by decide +kernel
  obtain ⟨text, rendered⟩ := exists_eq_ok_of_toOption accepted
  obtain ⟨body, trimmed, shown, whole, -, bare, -, parts⟩ := trimmed_body rendered
  rw [named] at whole
  rcases parts with ⟨no_body, -⟩ | ⟨ends, rfl⟩
  · exact absurd (bare.1 no_body) declares
  · exact ⟨text, body, rendered, shown, ends, whole⟩

end DottedKeys.Source
