import DottedKeys.Text.Space

/-!
# Layouts of generated source

A target language is a record of what its declarations look like. Names and values are put into them
as they are. The two layouts are those of `JavaRenderer` and `PythonRenderer`: what their
`open_group`, `constant`, `close_group` and `render_module` write. `layout?` is the table of
`get_renderer`.
-/

namespace DottedKeys.Source

/-- The constant that names the path of the group it stands in. -/
def rootConstant : Text := "_ROOT"

/-- How a language declares nested groups of string constants. -/
structure Layout where
  /-- What the language is asked for by. -/
  language : Text
  /-- How names of source files end. -/
  suffix : Text
  /-- What one level of nesting is indented by. -/
  indent : Text
  /-- The line that opens a group, with the empty line after it. -/
  opening : (name : Text) → Text
  /-- The declaration of a constant, with the empty line after it. -/
  constant : (name value : Text) → Text
  /-- The line that closes a group, if the language has one. -/
  closing : Text
  /-- The file around the members of the root. -/
  file : (package simpleName body : Text) → Text
  /-- Of two members of one name the later hides the earlier, so a group may not hold both. -/
  shadows : Bool

/-- A final class with static nested classes. -/
def java : Layout where
  language := "java"
  suffix := ".java"
  indent := "\t"
  opening name := "public static final class " ++ name ++ " \x7b\n\n"
  constant name value := "public static final String " ++ name ++ " = \"" ++ value ++ "\";\n\n"
  closing := "\x7d\n\n"
  file package simpleName body :=
    (if package.isEmpty then ([] : Text) else "package " ++ package ++ ";\n\n") ++
      "/*\n * This class is auto-generated from a properties file.\n * Do not version control!\n */\n"
      ++ "public final class " ++ simpleName ++ " \x7b\n\n" ++ body ++ "\x7d\n"
  shadows := false

/-- What opens a module of the indentation-based layout. -/
def moduleHeader (package simpleName : Text) : Text :=
  "\"\"\"" ++
    (if package.isEmpty then ("Configuration keys." : Text)
      else "Configuration keys for package " ++ package ++ ".") ++
    "\n\nThis module is auto-generated from a properties file.\nDo not version control!\n\"\"\"\n" ++
    "\nfrom typing import Final\n\n\nclass " ++ simpleName ++ ":\n\n"

/-- A module with one class and classes nested in it. A class without members needs a statement that
does nothing, and the blank line after the last member is left out. -/
def python : Layout where
  language := "python"
  suffix := ".py"
  indent := "    "
  opening name := "class " ++ name ++ ":\n\n"
  constant name value := name ++ ": Final = \"" ++ value ++ "\"\n\n"
  closing := []
  file package simpleName body :=
    let members : Text := if body.isWhite then "    pass\n" else body
    moduleHeader package simpleName ++ members.trimEnd ++ "\n"
  shadows := true

/-- The languages that source can be generated in, by name. -/
def layouts : List Layout := [java, python]

/-- The language that is meant if none is named. -/
def defaultLanguage : Text := "python"

/-- The layout of a language. -/
def layout? (language : Text) : Option Layout :=
  layouts.find? (·.language = language)

end DottedKeys.Source
