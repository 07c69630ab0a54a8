import DottedKeys.Properties.Line

/-!
# Entries

A logical line is cut into a raw key and a raw value before any escape is decoded. The key ends at
the first separator or blank that no backslash escapes; blanks and at most one separator then stand
before the value, and unescaped blanks at the end of the value are not part of it. `splitEntry` is
`_split_entry`, and `trimValue` is `_rstrip_unescaped`.
-/

namespace DottedKeys.Properties

/-- What can end a key. -/
def isDelimiter (c : CodePoint) : Bool :=
  isSeparator c || isBlank c

/-- Cut a line at its first unescaped delimiter, which stays with the second part. -/
def cutKey : (escaped : Bool) → Text → Text × Text
  | _, [] => ([], [])
  | escaped, c :: rest =>
    if !escaped && isDelimiter c then ([], c :: rest)
    else
      let (key, more) := cutKey (!escaped && isBackslash c) rest
      (c :: key, more)

/-- What is left of a line behind the delimiter: blanks, a separator, and blanks again are passed
over. -/
def skipDelimiter (t : Text) : Text :=
  match skipBlanks t with
  | [] => []
  | c :: rest => if isSeparator c then skipBlanks rest else c :: rest

/-- The raw key and the raw value of a logical line. -/
def splitEntry (line : Text) : Text × Text :=
  let (key, rest) := cutKey false line
  (key, skipDelimiter rest)

/-- Drop unescaped blanks from the front of a reversed text. A blank is escaped if an odd number of
backslashes stands before it in the text, so behind it here. -/
def dropUnescapedBlanks : Text → Text
  | [] => []
  | c :: rest =>
    if isBlank c && (rest.takeWhile isBackslash).length % 2 = 0 then dropUnescapedBlanks rest
    else c :: rest

/-- A raw value without its trailing unescaped blanks. -/
def trimValue (raw : Text) : Text :=
  (dropUnescapedBlanks raw.reverse).reverse

/-- The key and the value of a logical line. Of two malformed escapes, that of the value counts. -/
def decodeEntry (line : Text) : Except Malformed (Text × Text) := do
  let (rawKey, rawValue) := splitEntry line
  let value ← unescape (trimValue rawValue)
  let key ← unescape rawKey
  return (key, value)

end DottedKeys.Properties
