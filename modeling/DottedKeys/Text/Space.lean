import DottedKeys.Text

/-!
# White space

White space is wider than the blanks of a properties file: it takes in the line breaks, four
separator controls, and the spaces of other scripts. The `render_module` of `PythonRenderer` trims
the body of a module by it.
-/

namespace DottedKeys

/-- White space, as trimming understands it. -/
def CodePoint.isSpace (c : CodePoint) : Bool :=
  (0x09 ≤ c.val && c.val ≤ 0x0D) || (0x1C ≤ c.val && c.val ≤ 0x20) || c.val = 0x85 ||
    c.val = 0xA0 || c.val = 0x1680 || (0x2000 ≤ c.val && c.val ≤ 0x200A) || c.val = 0x2028 ||
    c.val = 0x2029 || c.val = 0x202F || c.val = 0x205F || c.val = 0x3000

/-- A text of white space only. -/
def Text.isWhite (t : Text) : Bool :=
  t.all CodePoint.isSpace

/-- A text without white space at its end. -/
def Text.trimEnd (t : Text) : Text :=
  (t.reverse.dropWhile CodePoint.isSpace).reverse

end DottedKeys
