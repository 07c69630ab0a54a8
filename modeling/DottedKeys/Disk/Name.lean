import DottedKeys.Text.Flaw
import DottedKeys.Text.Utf8

/-!
# File names

The disk knows names as bytes. A text names what its UTF-8 names, and 128 of the surrogates stand
for single bytes, so that bytes which are not UTF-8 can be named too. Two texts may thus be one
name; `text` gives the one in which surrogates stand only for what is not UTF-8.
-/

namespace DottedKeys

/-- The name of a file or directory, as the disk knows it. -/
abbrev FileName := Bytes

namespace FileName

/-- The byte that a surrogate stands for, if it is one of those that do. -/
def byte? (c : CodePoint) : Option UInt8 :=
  if 0xDC80 ≤ c.val ∧ c.val ≤ 0xDCFF then some (.ofNat (c.val - 0xDC00)) else none

/-- The surrogate that stands for a byte. -/
def ofByte (b : UInt8) : CodePoint :=
  ⟨0xDC00 + b.toNat, Nat.lt_trans (Nat.add_lt_add_left b.toNat_lt 0xDC00) (by decide)⟩

/-- What a text lacks to be a file name. -/
def flaw? (t : Text) : Option NameFlaw :=
  t.flaw? fun c => !c.isSurrogate || (byte? c).isSome

/-- The name that a text without flaw spells. -/
def ofText (t : Text) : FileName :=
  t.flatMap fun c => ((byte? c).map fun b => [b]).getD (Utf8.encodePoint c)

/-- The code point that the first bytes are the UTF-8 of, with their number. -/
def first? (name : FileName) : Option (CodePoint × Nat) :=
  [1, 2, 3, 4].findSome? fun n =>
    match Utf8.decode? (name.take n) with
    | some [c] => some (c, n)
    | _ => none

/-- The text of bytes, of which the first `done` have been read already. -/
def textAfter : (done : Nat) → FileName → Text
  | _, [] => []
  | done + 1, _ :: rest => textAfter done rest
  | 0, b :: rest =>
    match first? (b :: rest) with
    | some (c, n) => c :: textAfter (n - 1) rest
    | none => ofByte b :: textAfter 0 rest

/-- The text of a name. -/
def text (name : FileName) : Text :=
  textAfter 0 name

/-- The most bytes that a name may have. -/
def longest : Nat := 255

end FileName

end DottedKeys
