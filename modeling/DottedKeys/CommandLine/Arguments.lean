import DottedKeys.Config
import DottedKeys.Event
import DottedKeys.Text.Digit

/-!
# Arguments of the command line

Arguments are read from left to right. An option takes the next argument, or what follows an equals
sign in its own; the last of several wins. A flag ends the reading at once; one-letter flags can
share an argument, and an equals sign after the first letter is skipped. Arguments that belong to no
option are refused, but only after everything else was read. The options and flags are those of
`build_parser`, with the refusals of its parser.
-/

namespace DottedKeys.CommandLine

/-- Options that take a value. -/
inductive Setting where
  | archive
  | properties
  | className
  | staging
  | language
  | encoding
  | logLevel
deriving DecidableEq

/-- What an option is called. -/
def Setting.name : Setting → Text
  | archive => "-out"
  | properties => "-properties"
  | className => "-classname"
  | staging => "-tmp"
  | language => "-language"
  | encoding => "-encoding"
  | logLevel => "--log-level"

/-- All options that take a value. -/
def Setting.all : List Setting :=
  [archive, properties, className, staging, language, encoding, logLevel]

/-- Options without a value. -/
inductive Flag where
  | help
  | version
deriving DecidableEq

/-- The one letter that a flag can be shortened to. -/
def Flag.letter : Flag → CodePoint
  | help => 'h'
  | version => 'v'

/-- The name of a flag that is one letter. -/
def Flag.shortName (f : Flag) : Text :=
  ['-', f.letter]

/-- What a flag is called, the short name first. -/
def Flag.names (f : Flag) : List Text :=
  [f.shortName, match f with | help => "--help" | version => "--version"]

/-- All flags. -/
def Flag.all : List Flag := [help, version]

/-- The flag of a letter. -/
def Flag.ofLetter? (c : CodePoint) : Option Flag :=
  all.find? (·.letter = c)

/-- Why arguments are refused. -/
inductive Refusal where
  | unrecognized (arguments : List Text)
  | noValue (setting : Setting)
  | invalidChoice (setting : Setting) (value : Text) (choices : List Text)
  | unwantedValue (flag : Flag) (value : Text)
deriving DecidableEq

/-- What is reported of arguments that are refused. -/
def Refusal.message : Refusal → Text
  | unrecognized arguments =>
    "unrecognized arguments: " ++ List.intercalate (" " : Text) arguments
  | noValue setting => "argument " ++ setting.name ++ ": expected one argument"
  | invalidChoice setting value choices =>
    "argument " ++ setting.name ++ ": invalid choice: " ++ value.quoted ++ " (choose from " ++
      List.intercalate (", " : Text) (choices.map Text.quoted) ++ ")"
  | unwantedValue flag value =>
    "argument " ++ List.intercalate ("/" : Text) flag.names ++ ": ignored explicit argument " ++
      value.quoted

/-- What ends the reading of arguments early. -/
inductive Stop where
  | flag (flag : Flag)
  | refusal (refusal : Refusal)
deriving DecidableEq

/-- What an argument is, looked at by itself. -/
inductive Word where
  /-- A value, or an argument that belongs to nothing. -/
  | plain
  /-- Looks like an option, but is none. -/
  | unknown
  /-- An option, with the value that stands in the same argument. -/
  | setting (setting : Setting) (value : Option Text)
  /-- A flag, with a value that it does not take. -/
  | flag (flag : Flag) (value : Option Text)
  /-- A one-letter flag with more letters behind it. -/
  | cluster (flag : Flag) (letters : Text)

/-- A flag by one of its names. What is attached to the one-letter name are more letters, as long as
there is at least one. -/
def Flag.word (f : Flag) (name : Text) (value : Option Text) : Word :=
  match value with
  | some (c :: letters) =>
    if name = f.shortName then .cluster f (c :: letters) else .flag f (some (c :: letters))
  | _ => .flag f value

/-- An option or flag by its whole name. -/
def named? (name : Text) (value : Option Text) : Option Word :=
  match Setting.all.find? (·.name = name) with
  | some s => some (.setting s value)
  | none => (Flag.all.find? (·.names.contains name)).map (·.word name value)

/-- The option whose name begins with an argument. -/
def abbreviated? (argument : Text) : Option Setting :=
  Setting.all.find? (argument.isPrefixOf ·.name)

/-- No two names have the same code point behind the first hyphen. -/
theorem Setting.eq_of_second {s t : Setting} (same : s.name[1]? = t.name[1]?) : s = t := by
  cases s <;> cases t <;> first | rfl | exact absurd same (by decide)

/-- Two code points tell the options apart, so no longer beginning is that of two names. -/
theorem abbreviated?_eq_some_iff {first second : CodePoint} {rest : Text} {s : Setting} :
    abbreviated? (first :: second :: rest) = some s ↔ first :: second :: rest <+: s.name := by
  have begins : ∀ t : Setting, first :: second :: rest <+: t.name → t.name[1]? = some second := by
    rintro t ⟨more, name⟩
    rw [← name]
    rfl
  rw [abbreviated?]
  constructor
  · intro found
    simpa using List.find?_some found
  · intro whole
    cases found : Setting.all.find? ((first :: second :: rest).isPrefixOf ·.name) with
    | none =>
      have listed : s ∈ Setting.all := by cases s <;> simp [Setting.all]
      exact absurd (List.isPrefixOf_iff_prefix.2 whole) (List.find?_eq_none.1 found s listed)
    | some t =>
      have other : first :: second :: rest <+: t.name := by simpa using List.find?_some found
      rw [Setting.eq_of_second ((begins t other).trans (begins s whole).symm)]

/-- Digits, with or without a point before some of them. -/
def isUnsigned (t : Text) : Bool :=
  match t.dropWhile CodePoint.isDigit with
  | [] => !t.isEmpty
  | c :: rest => c = '.' && !rest.isEmpty && rest.all CodePoint.isDigit

/-- A number behind a minus sign. One line feed at the end is allowed. -/
def isNumber (t : Text) : Bool :=
  isUnsigned (if t.getLast? = some '\n' then t.dropLast else t)

/-- What an argument is. Of those that start with a hyphen, the hyphen alone, negative numbers and
arguments with a blank are values unless an option or flag accounts for them. The name of an option
with one hyphen can be cut short, but then no value stands in the same argument. -/
def classify (argument : Text) : Word :=
  match argument with
  | [] => .plain
  | first :: rest =>
    if first ≠ '-' then .plain
    else
      match named? argument none with
      | some word => word
      | none =>
        let name := argument.takeWhile fun (c : CodePoint) => !decide (c = '=')
        match rest, argument.drop name.length with
        | [], _ => .plain
        | letter :: letters, attached =>
          match if attached.isEmpty then none else named? name (some (attached.drop 1)) with
          | some word => word
          | none =>
            match Flag.ofLetter? letter with
            | some flag => .cluster flag letters
            | none =>
              match if letter = '-' then none else abbreviated? argument with
              | some s => .setting s none
              | none => if isNumber rest || argument.contains ' ' then .plain else .unknown

/-- What a cluster of letters comes to. If each letter is a flag, the first flag counts. Otherwise
everything from the first letter that is none is a value that the flag before it does not take. -/
def readCluster (first last : Flag) : Text → Stop
  | [] => .flag first
  | c :: rest =>
    match Flag.ofLetter? c with
    | some flag => readCluster first flag rest
    | none => .refusal (.unwantedValue last (c :: rest))

/-- What the arguments gave so far. -/
structure Given where
  options : Options
  level : Level
  strays : List Text

/-- What is given if there are no arguments. -/
def Given.initial : Given where
  options := ⟨none, none, none, none, some Source.defaultLanguage, some Config.defaultEncoding⟩
  level := .info
  strays := []

/-- The value of an option that allows only some. -/
def choose {α : Type} (setting : Setting) (value : Text) (choices : List Text) (found : Option α) :
    Except Stop α :=
  match found with
  | some a => .ok a
  | none => .error (.refusal (.invalidChoice setting value choices))

/-- Give a value to an option. -/
def Given.set (g : Given) (setting : Setting) (value : Text) : Except Stop Given :=
  match setting with
  | .archive => .ok { g with options.archive := some value }
  | .properties => .ok { g with options.properties := some value }
  | .className => .ok { g with options.className := some value }
  | .staging => .ok { g with options.staging := some value }
  | .encoding => .ok { g with options.encoding := some value }
  | .language => do
    let l ← choose setting value (Source.layouts.map (·.language)) (Source.layout? value)
    return { g with options.language := some l.language }
  | .logLevel => do
    let level ← choose setting value (Level.all.map (·.name)) (Level.named? value)
    return { g with level := level }

/-- Keep an argument that belongs to no option. -/
def Given.stray (g : Given) (arguments : List Text) : Given :=
  { g with strays := g.strays ++ arguments }

/-- Two hyphens, after which nothing is an option any more. -/
def terminator : Text := "--"

/-- Whether an argument can be the value of an option before it. -/
def isValue (argument : Text) : Bool :=
  match classify argument with
  | .plain => true
  | _ => false

/-- Read arguments one after the other. -/
def scan (g : Given) : List Text → Except Stop Given
  | [] => .ok g
  | argument :: rest =>
    if argument = terminator then .ok (g.stray (argument :: rest))
    else
      match classify argument with
      | .plain | .unknown => scan (g.stray [argument]) rest
      | .flag flag none => .error (.flag flag)
      | .flag flag (some value) => .error (.refusal (.unwantedValue flag value))
      | .cluster flag letters => .error (readCluster flag flag letters)
      | .setting s (some value) =>
        match g.set s value with
        | .ok g => scan g rest
        | .error stop => .error stop
      | .setting s none =>
        match rest with
        | [] => .error (.refusal (.noValue s))
        | value :: rest =>
          if isValue value then
            match g.set s value with
            | .ok g => scan g rest
            | .error stop => .error stop
          else .error (.refusal (.noValue s))

/-- What arguments give, all of which have to belong to an option. -/
def read (arguments : List Text) : Except Stop Given :=
  match scan .initial arguments with
  | .error stop => .error stop
  | .ok g => if g.strays.isEmpty then .ok g else .error (.refusal (.unrecognized g.strays))

end DottedKeys.CommandLine
