import DottedKeys.Proofs.Source.Scope

/-!
# Lines of generated source

Declarations are printed line by line, with an empty line after each. `linesOf` gives the lines of a
declaration with their depth, `printAll_eq` says that they are what is printed in every language
whose declarations have a `Form`, and `lines_python_file` and `lines_java_file` put the lines of the
file around them.
-/

namespace DottedKeys

namespace Text

/-- What ends a line. -/
def lineFeed : CodePoint := '\n'

/-- The lines of a text. What follows the last line feed is a line too. -/
def lines (t : Text) : List Text :=
  t.splitOn lineFeed

/-- A text of lines, each with a line feed at its end. -/
def unlines (ls : List Text) : Text :=
  ls.flatMap (· ++ [lineFeed])

/-- Lines with an empty one after each. -/
def spaced (ls : List Text) : List Text :=
  ls.flatMap fun line => [line, []]

theorem unlines_append (ls more : List Text) : unlines (ls ++ more) = unlines ls ++ unlines more :=
  List.flatMap_append

theorem spaced_append (ls more : List Text) : spaced (ls ++ more) = spaced ls ++ spaced more :=
  List.flatMap_append

theorem spaced_cons (line : Text) (ls : List Text) : spaced (line :: ls) = spaced [line] ++ spaced ls :=
  spaced_append [line] ls

theorem unlines_spaced_singleton (line : Text) :
    unlines (spaced [line]) = line ++ [lineFeed, lineFeed] := by
  simp [unlines, spaced]

/-- Lines without line feeds are the lines of their text. -/
theorem lines_unlines_append {ls : List Text} (unbroken : ∀ line ∈ ls, lineFeed ∉ line) (t : Text) :
    lines (unlines ls ++ t) = ls ++ lines t := by
  induction ls with
  | nil => rfl
  | cons line ls ih =>
    have later := ih fun other member => unbroken other (List.mem_cons_of_mem line member)
    rw [unlines, List.flatMap_cons, List.append_assoc, List.append_assoc, List.singleton_append,
      lines, splitOn_append_mark, splitOn_of_not_mem (unbroken line List.mem_cons_self)]
    exact congrArg (line :: ·) later

theorem lines_unlines {ls : List Text} (unbroken : ∀ line ∈ ls, lineFeed ∉ line) :
    lines (unlines ls) = ls ++ [[]] := by
  have whole := lines_unlines_append unbroken []
  rwa [List.append_nil] at whole

theorem unbroken_spaced {ls : List Text} (unbroken : ∀ line ∈ ls, lineFeed ∉ line) :
    ∀ line ∈ spaced ls, lineFeed ∉ line := by
  intro line member
  obtain ⟨other, among, here⟩ := List.mem_flatMap.1 member
  rcases List.mem_cons.1 here with rfl | here
  · exact unbroken line among
  · rw [List.mem_singleton.1 here]
    exact List.not_mem_nil

/-- White space at the end of a text is cut off back to what is none. -/
theorem trimEnd_append {front white : Text} {last : CodePoint} (visible : last.isSpace = false)
    (blank : white.isWhite = true) : trimEnd (front ++ [last] ++ white) = front ++ [last] := by
  have cut : (front ++ [last] ++ white).reverse.dropWhile CodePoint.isSpace =
      (front ++ [last]).reverse := by
    rw [List.reverse_append, List.dropWhile_append_of_pos fun c member =>
      List.all_eq_true.1 blank c (List.mem_reverse.1 member)]
    simp [visible]
  rw [trimEnd, cut, List.reverse_reverse]

/-- A text with something else than white space in it is not white. -/
theorem isWhite_append {last : CodePoint} (visible : last.isSpace = false) (front back : Text) :
    (front ++ [last] ++ back).isWhite = false := by
  simp [isWhite, visible]

end Text

namespace Source

open DottedKeys.Text

/-! ## Lines of declarations -/

/-- What a line of generated source declares. -/
inductive Item where
  | constant (name value : Text)
  | opening (name : Text)
  | closing
deriving DecidableEq

/-- A line of generated source, with the number of groups that it stands in. -/
structure Line where
  depth : Nat
  item : Item
deriving DecidableEq

mutual

/-- The lines of a declaration, in a language with or without lines that close groups. -/
def linesOf (closes : Bool) (depth : Nat) : Declaration → List Line
  | .constant name value => [⟨depth, .constant name value⟩]
  | .group name members =>
    ⟨depth, .opening name⟩ :: linesOfAll closes (depth + 1) members ++
      if closes then [⟨depth, .closing⟩] else []

/-- The lines of declarations, one after the other. -/
def linesOfAll (closes : Bool) (depth : Nat) : List Declaration → List Line
  | [] => []
  | d :: rest => linesOf closes depth d ++ linesOfAll closes depth rest

end

/-- What the lines of a language look like behind their indentation: the texts around the name and
the value of a constant, those around the name of a group, and the line that closes a group. -/
structure Form where
  before : Text
  between : Text
  after : Text
  beforeGroup : Text
  afterGroup : Text
  close : Text

/-- Constants of a module, and its classes. -/
def pythonForm : Form where
  before := []
  between := ": Final = \""
  after := "\""
  beforeGroup := "class "
  afterGroup := ":"
  close := []

/-- Constants of a class, and the classes in it. -/
def javaForm : Form where
  before := "public static final String "
  between := " = \""
  after := "\";"
  beforeGroup := "public static final class "
  afterGroup := " \x7b"
  close := "\x7d"

/-- An item, written out. -/
def Item.text (f : Form) : Item → Text
  | constant name value => f.before ++ name ++ f.between ++ value ++ f.after
  | opening name => f.beforeGroup ++ name ++ f.afterGroup
  | closing => f.close

/-- The indentation of a line. -/
def Line.indentation (l : Layout) (line : Line) : Text :=
  (List.replicate line.depth l.indent).flatten

/-- A line, written out. -/
def Line.text (l : Layout) (f : Form) (line : Line) : Text :=
  line.indentation l ++ line.item.text f

/-- What lines are indented by. -/
def isIndent (c : CodePoint) : Bool :=
  c = ' ' || c = '\t'

/-- A language has a form if its declarations are lines of that form, indented by blanks. -/
structure Form.Fits (f : Form) (l : Layout) : Prop where
  indented : l.indent ≠ [] ∧ ∀ c ∈ l.indent, isIndent c = true
  constant : ∀ name value, l.constant name value = unlines (spaced [(Item.constant name value).text f])
  opening : ∀ name, l.opening name = unlines (spaced [(Item.opening name).text f])
  closing : l.closing = if f.close.isEmpty then [] else unlines (spaced [Item.closing.text f])

theorem pythonForm_fits : pythonForm.Fits python where
  indented := by decide
  constant name value := by
    rw [unlines_spaced_singleton]
    simp only [python, pythonForm, Item.text, List.append_assoc, List.nil_append]
    rfl
  opening name := by
    rw [unlines_spaced_singleton]
    simp only [python, pythonForm, Item.text, List.append_assoc]
    rfl
  closing := rfl

theorem javaForm_fits : javaForm.Fits java where
  indented := by decide
  constant name value := by
    rw [unlines_spaced_singleton]
    simp only [java, javaForm, Item.text, List.append_assoc]
    rfl
  opening name := by
    rw [unlines_spaced_singleton]
    simp only [java, javaForm, Item.text, List.append_assoc]
    rfl
  closing := rfl

/-- What ends a constant of a module. -/
def quote : CodePoint := '"'

theorem getLast?_constant {line : Line} {name value : Text}
    (declared : line.item = .constant name value) :
    (line.text python pythonForm).getLast? = some quote := by
  rw [Line.text, declared, Item.text, ← List.append_assoc]
  exact List.getLast?_concat

section Print

variable {l : Layout} {f : Form}

/-- The text of one line, from its indentation on. -/
theorem unlines_line (depth : Nat) (item : Item) :
    unlines (spaced [(⟨depth, item⟩ : Line).text l f]) =
      indentation l depth ++ unlines (spaced [item.text f]) := by
  rw [unlines_spaced_singleton, unlines_spaced_singleton, Line.text, List.append_assoc]
  rfl

theorem closing_eq (fits : f.Fits l) (depth : Nat) :
    (if l.closing.isEmpty then [] else indentation l depth ++ l.closing) =
      unlines (spaced ((if !f.close.isEmpty then [(⟨depth, .closing⟩ : Line)] else []).map
        (Line.text l f))) := by
  rw [fits.closing]
  cases f.close.isEmpty with
  | true => rfl
  | false =>
    have some_line : (unlines (spaced [Item.closing.text f])).isEmpty = false := by
      simp [unlines_spaced_singleton]
    simp [some_line, unlines_line]

mutual

/-- A declaration is printed as its lines. -/
theorem print_eq (fits : f.Fits l) (depth : Nat) : (d : Declaration) →
    print l depth d =
      unlines (spaced ((linesOf (!f.close.isEmpty) depth d).map (Line.text l f)))
  | .constant name value => by
    rw [print, linesOf, fits.constant, List.map_singleton, unlines_line]
  | .group name members => by
    have inner := printAll_eq fits (depth + 1) members
    rw [print, linesOf, List.cons_append, List.map_cons, List.map_append, spaced_cons, spaced_append,
      unlines_append, unlines_append, ← inner, ← closing_eq fits, unlines_line, ← fits.opening,
      List.append_assoc]
    rfl

/-- Declarations are printed as their lines. -/
theorem printAll_eq (fits : f.Fits l) (depth : Nat) : (ds : List Declaration) →
    printAll l depth ds =
      unlines (spaced ((linesOfAll (!f.close.isEmpty) depth ds).map (Line.text l f)))
  | [] => by
    rw [printAll, linesOfAll]
    rfl
  | d :: rest => by
    rw [printAll, linesOfAll, print_eq fits depth d, printAll_eq fits depth rest, List.map_append,
      spaced_append, unlines_append]

end

end Print

/-! ## Lines of files -/

/-- The first line of a module, which names its package if it has one. -/
def titleLine (package : Text) : Text :=
  "\"\"\"" ++
    (if package.isEmpty then ("Configuration keys." : Text)
      else "Configuration keys for package " ++ package ++ ".")

/-- The lines between the title of a module and its class. -/
def noteLines : List Text :=
  [[], "This module is auto-generated from a properties file.", "Do not version control!", "\"\"\"", [],
    "from typing import Final", [], []]

/-- The lines that open a module. -/
def moduleLines (package simpleName : Text) : List Text :=
  [titleLine package] ++ noteLines ++ ["class " ++ simpleName ++ ":", []]

/-- The lines of a class without members, in the place of these. -/
def idleLines : List Text := ["    pass", []]

/-- The lines that name the package of a class, if it has one. -/
def packageLines (package : Text) : List Text :=
  if package.isEmpty then [] else ["package " ++ package ++ ";", []]

/-- The lines of the comment above a class. -/
def bannerLines : List Text :=
  ["/*", " * This class is auto-generated from a properties file.", " * Do not version control!", " */"]

/-- The lines that open a file with one class. -/
def classLines (package simpleName : Text) : List Text :=
  packageLines package ++ bannerLines ++ [("public final class " ++ simpleName ++ " \x7b" : Text), []]

/-- The lines that close a file with one class. -/
def closingLines : List Text := ["\x7d", []]

theorem unlines_noteLines :
    ("\n\nThis module is auto-generated from a properties file.\nDo not version control!\n\"\"\"\n" ++
      "\nfrom typing import Final\n\n\nclass " : Text) =
      [lineFeed] ++ unlines noteLines ++ "class " := by
  decide +kernel

theorem moduleHeader_eq (package simpleName : Text) :
    moduleHeader package simpleName = unlines (moduleLines package simpleName) := by
  have notes := congrArg (· ++ (simpleName ++ (":\n\n" : Text))) unlines_noteLines
  simp only [List.append_assoc] at notes
  have opening : unlines ["class " ++ simpleName ++ ":", []] =
      ("class " ++ simpleName ++ ":\n\n" : Text) := by
    simp only [unlines, List.flatMap_cons, List.flatMap_nil, List.append_assoc]
    rfl
  rw [moduleLines, unlines_append, unlines_append, opening, moduleHeader]
  simp only [List.append_assoc, notes, titleLine, unlines, List.flatMap_singleton]

theorem unlines_packageLines (package : Text) :
    unlines (packageLines package) =
      if package.isEmpty then [] else ("package " ++ package ++ ";\n\n" : Text) := by
  unfold packageLines
  cases package.isEmpty with
  | true => rfl
  | false =>
    simp only [Bool.false_eq_true, if_false, unlines, List.flatMap_cons, List.flatMap_nil,
      List.append_assoc]
    rfl

theorem unlines_bannerLines : unlines bannerLines =
    "/*\n * This class is auto-generated from a properties file.\n * Do not version control!\n */\n" := by
  decide +kernel

theorem java_file_eq (package simpleName : Text) (ls : List Text) :
    java.file package simpleName (unlines ls) =
      unlines (classLines package simpleName ++ ls ++ [("\x7d" : Text)]) := by
  have opening : unlines [("public final class " ++ simpleName ++ " \x7b" : Text), []] =
      ("public final class " ++ simpleName ++ " \x7b\n\n" : Text) := by
    simp only [unlines, List.flatMap_cons, List.flatMap_nil, List.append_assoc]
    rfl
  have ending : unlines ["\x7d"] = "\x7d\n" := by decide
  rw [classLines, unlines_append, unlines_append, unlines_append, unlines_append,
    unlines_packageLines, unlines_bannerLines, opening, ending]
  simp only [java, List.append_assoc]

/-- What holds of the title, of the lines below it and of the line that opens the class holds of all
lines that open a module. -/
theorem forall_mem_moduleLines {Holds : Text → Prop} {package simpleName : Text}
    (title : Holds (titleLine package)) (notes : ∀ line ∈ noteLines, Holds line)
    (opening : Holds ("class " ++ simpleName ++ ":")) :
    ∀ line ∈ moduleLines package simpleName, Holds line := by
  intro line member
  simp only [moduleLines, List.mem_append, List.mem_cons, List.not_mem_nil, or_false] at member
  rcases member with (rfl | member) | rfl | rfl
  · exact title
  · exact notes line member
  · exact opening
  · exact notes [] List.mem_cons_self

/-- The texts that stand around the package in the title of a module. -/
def titleTexts : List Text :=
  ["\"\"\"", "Configuration keys.", "Configuration keys for package ", "."]

/-- What stands neither in the texts of a title nor in the package is not in the title. -/
theorem not_mem_titleLine {mark : CodePoint} (apart : ∀ t ∈ titleTexts, mark ∉ t) {package : Text}
    (outside : mark ∉ package) : mark ∉ titleLine package := by
  simp only [titleTexts, List.forall_mem_cons] at apart
  obtain ⟨quotes, bare, front, back, -⟩ := apart
  unfold titleLine
  split
  · simp only [List.mem_append, not_or]
    exact ⟨quotes, bare⟩
  · simp only [List.mem_append, not_or]
    exact ⟨quotes, ⟨front, outside⟩, back⟩

/-- The texts that stand around the names above the members of a class. -/
def classTexts : List Text :=
  "package " :: ";" :: "public final class " :: " \x7b" :: bannerLines

/-- What stands neither in the texts above the members of a class nor in the names between them is
in none of these lines. -/
theorem not_mem_classLines {mark : CodePoint} (apart : ∀ t ∈ classTexts, mark ∉ t)
    {package simpleName : Text} (outside_package : mark ∉ package) (outside_name : mark ∉ simpleName) :
    ∀ line ∈ classLines package simpleName, mark ∉ line := by
  simp only [classTexts, List.forall_mem_cons] at apart
  obtain ⟨before_package, after_package, before_name, after_name, banner⟩ := apart
  have named : ∀ line ∈ packageLines package, mark ∉ line := by
    unfold packageLines
    split
    · simp
    · simp only [List.forall_mem_cons, List.mem_append, not_or]
      exact ⟨⟨⟨before_package, outside_package⟩, after_package⟩, by simp⟩
  have opening : mark ∉ ("public final class " ++ simpleName ++ " \x7b" : Text) := by
    simp only [List.mem_append, not_or]
    exact ⟨⟨before_name, outside_name⟩, after_name⟩
  intro line member
  simp only [classLines, List.mem_append, List.mem_cons, List.not_mem_nil, or_false] at member
  rcases member with (member | member) | rfl | rfl
  · exact named line member
  · exact banner line member
  · exact opening
  · exact List.not_mem_nil

section File

variable {package simpleName : Text}

/-- The file of a module without members. -/
theorem python_file_nil :
    python.file package simpleName [] = moduleHeader package simpleName ++ ("    pass\n" : Text) := by
  have idle : Text.trimEnd "    pass\n" ++ ("\n" : Text) = ("    pass\n" : Text) := by decide
  have blank : Text.isWhite [] = true := rfl
  simp only [python, blank, if_true, List.append_assoc, idle]

/-- Of members that end in something visible before two line feeds the second is cut off. -/
theorem python_file_append {last : CodePoint} (visible : last.isSpace = false) (front : Text) :
    python.file package simpleName (front ++ [last] ++ [lineFeed, lineFeed]) =
      moduleHeader package simpleName ++ (front ++ [last] ++ [lineFeed]) := by
  have dark := isWhite_append visible front [lineFeed, lineFeed]
  have cut : (front ++ [last] ++ [lineFeed, lineFeed]).trimEnd = front ++ [last] :=
    trimEnd_append visible (by decide)
  have feed : ("\n" : Text) = [lineFeed] := rfl
  simp only [python, dark, Bool.false_eq_true, if_false, cut, feed]
  rw [List.append_assoc]

variable (unbroken_package : lineFeed ∉ package) (unbroken_name : lineFeed ∉ simpleName)
  {ls : List Text} (unbroken : ∀ line ∈ ls, lineFeed ∉ line)
include unbroken_package unbroken_name

theorem unbroken_moduleLines : ∀ line ∈ moduleLines package simpleName, lineFeed ∉ line := by
  refine forall_mem_moduleLines (not_mem_titleLine (by decide) unbroken_package) (by decide) ?_
  simp only [List.mem_append, not_or]
  exact ⟨⟨by decide, unbroken_name⟩, by decide⟩

include unbroken

/-- The lines of a file with one class. -/
theorem lines_java_file :
    lines (java.file package simpleName (unlines (spaced ls))) =
      classLines package simpleName ++ spaced ls ++ closingLines := by
  rw [java_file_eq, lines_unlines]
  · simp only [List.append_assoc]
    rfl
  · intro line member
    simp only [List.mem_append, List.mem_singleton] at member
    rcases member with (member | member) | rfl
    · exact not_mem_classLines (by decide) unbroken_package unbroken_name line member
    · exact unbroken_spaced unbroken line member
    · decide

/-- The lines of a module. What is cut off its end is the line feed of the last empty line. -/
theorem lines_python_file (visible : ∀ line ∈ ls, ∃ front last, line = front ++ [last] ∧
      last.isSpace = false) :
    lines (python.file package simpleName (unlines (spaced ls))) =
      moduleLines package simpleName ++ if ls.isEmpty then idleLines else spaced ls := by
  have headed := lines_unlines_append (unbroken_moduleLines unbroken_package unbroken_name)
  cases ls using List.reverseRecOn with
  | nil =>
    have bare : unlines (spaced []) = [] := rfl
    have idle : lines "    pass\n" = idleLines := by decide
    rw [bare, python_file_nil, moduleHeader_eq, headed, idle]
    rfl
  | append_singleton others line =>
    obtain ⟨front, last, rfl, shown⟩ := visible line (by simp)
    have body : unlines (spaced (others ++ [front ++ [last]])) =
        (unlines (spaced others) ++ front ++ [last]) ++ [lineFeed, lineFeed] := by
      rw [spaced_append, unlines_append, unlines_spaced_singleton]
      simp only [List.append_assoc]
    have some_line : (others ++ [front ++ [last]]).isEmpty = false := by simp
    have others_unbroken : ∀ other ∈ spaced others, lineFeed ∉ other :=
      unbroken_spaced fun other member => unbroken other (List.mem_append_left _ member)
    have line_unbroken : lineFeed ∉ front ++ [last] := unbroken _ (by simp)
    have last_line : lines (front ++ [last] ++ [lineFeed]) = spaced [front ++ [last]] := by
      rw [lines, splitOn_append_mark, splitOn_of_not_mem line_unbroken]
      rfl
    rw [body, python_file_append shown, moduleHeader_eq, headed, some_line, List.append_assoc,
      List.append_assoc, lines_unlines_append others_unbroken, ← List.append_assoc front, last_line,
      spaced_append]
    rfl

end File

end Source

end DottedKeys
