import DottedKeys.Text.Printable

/-!
# Quoted text

Messages quote keys, names and paths. A quotation stands between apostrophes, or between double
quotes if the text holds an apostrophe and no double quote. Inside, the backslash and the quote in
use take a backslash, three controls have letters, and what cannot be printed is named by its number
in hexadecimal digits. Quoted are the class name and the encoding that `from_namespace` refuses, the
key that `check_group` refuses, and the names in failures of the disk.
-/

namespace DottedKeys.Text

/-- The lower-case hexadecimal digit of a number below sixteen. -/
def hexDigit (n : Nat) : CodePoint :=
  .ofChar (Nat.digitChar (n % 16))

/-- The last `width` hexadecimal digits of a number. -/
def hexDigits : (width n : Nat) → Text
  | 0, _ => []
  | width + 1, n => hexDigits width (n / 16) ++ [hexDigit n]

/-- A code point by its number: two digits below `100`, four below `10000`, else eight. -/
def numbered (c : CodePoint) : Text :=
  if c.val < 0x100 then "\\x" ++ hexDigits 2 c.val
  else if c.val < 0x10000 then "\\u" ++ hexDigits 4 c.val
  else "\\U" ++ hexDigits 8 c.val

/-- The quote that a text is put in. -/
def quoteFor (t : Text) : CodePoint :=
  if t.contains '\'' && !t.contains '"' then '"' else '\''

/-- One code point inside a quotation. -/
def escaped (quote c : CodePoint) : Text :=
  if c = '\\' || c = quote then ['\\', c]
  else if c = '\n' then "\\n"
  else if c = '\r' then "\\r"
  else if c = '\t' then "\\t"
  else if c.isPrintable then [c]
  else numbered c

/-- The text as a message quotes it. -/
def quoted (t : Text) : Text :=
  let quote := quoteFor t
  [quote] ++ t.flatMap (escaped quote) ++ [quote]

end DottedKeys.Text
