import DottedKeys.Properties.Escape

/-!
# Lines of a properties file

A natural line ends at a carriage return, a line feed, or the two in that order. A logical line is a
natural line without its leading blanks, joined with the next one as long as it ends in an unpaired
backslash. Blank lines and comments are passed over, but only where no line is being continued.
`joinLines` is the loop of `_logical_lines`, and `naturalLines` what it goes over.
-/

namespace DottedKeys.Properties

/-- Space, tab and form feed are the only blanks of the format. -/
def isBlank (c : CodePoint) : Bool :=
  c = ' ' || c = '\t' || c = '\x0c'

/-- The two separators that stand between a key and its value. -/
def isSeparator (c : CodePoint) : Bool :=
  c = '=' || c = ':'

/-- What the first code point of a comment line is. -/
def isCommentMark (c : CodePoint) : Bool :=
  c = '#' || c = '!'

/-- A text without its leading blanks. -/
def skipBlanks (t : Text) : Text :=
  t.dropWhile isBlank

/-- Natural lines, where a line feed belongs to the carriage return right before it. -/
def naturalLinesAfter : (afterReturn : Bool) → Text → List Text
  | _, [] => [[]]
  | afterReturn, c :: rest =>
    if c = '\r' then [] :: naturalLinesAfter true rest
    else if c = '\n' then
      if afterReturn then naturalLinesAfter false rest else [] :: naturalLinesAfter false rest
    else Text.consFirst c (naturalLinesAfter false rest)

/-- The natural lines of a text; what follows the last line break is a line too, if an empty one. -/
def naturalLines (t : Text) : List Text :=
  naturalLinesAfter false t

/-- Whether the next natural line belongs to this one: the last backslash is not paired. -/
def continues (line : Text) : Bool :=
  trailingBackslashes line % 2 = 1

/-- A line that is passed over unless it continues another: blank, or a comment. -/
def isIgnored : Text → Bool
  | [] => true
  | c :: _ => isCommentMark c

/-- Join natural lines, given what has been gathered of a line that is being continued. A file that
ends in a continuation yields what was gathered, unless that is nothing. -/
def joinLines : (pending : Option Text) → List Text → List Text
  | none, [] => []
  | some gathered, [] => if gathered.isEmpty then [] else [gathered]
  | none, natural :: rest =>
    let line := skipBlanks natural
    if isIgnored line then joinLines none rest
    else if continues line then joinLines (some line.dropLast) rest
    else line :: joinLines none rest
  | some gathered, natural :: rest =>
    let line := skipBlanks natural
    if continues line then joinLines (some (gathered ++ line.dropLast)) rest
    else (gathered ++ line) :: joinLines none rest

/-- The logical lines of a text. -/
def logicalLines (t : Text) : List Text :=
  joinLines none (naturalLines t)

end DottedKeys.Properties
