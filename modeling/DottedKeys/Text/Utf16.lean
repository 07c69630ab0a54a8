import DottedKeys.Text.Utf8

/-!
# UTF-16

Code points above `FFFF` (hexadecimal) take two code units, a high and a low surrogate; every other
code point, a lone surrogate too, is its own unit. Keys are ordered by these units, and two of the
encodings of a properties file store them. Reading is strict: a surrogate stands only in a pair. The
units are those that `_utf16_units` sorts by.
-/

namespace DottedKeys.Utf16

/-- The code units of one code point. -/
def unitsOf (c : CodePoint) : List UInt16 :=
  if c.val < 0x10000 then [.ofNat c.val]
  else [.ofNat (0xD800 + (c.val - 0x10000) / 0x400), .ofNat (0xDC00 + (c.val - 0x10000) % 0x400)]

/-- The code units of a text. -/
def units (t : Text) : List UInt16 :=
  t.flatMap unitsOf

/-- The two bytes of a code unit, the more significant one first. -/
def bigEndian (u : UInt16) : Bytes :=
  [.ofNat (u.toNat / 0x100), .ofNat (u.toNat % 0x100)]

/-- The bytes of a text, each unit with its more significant byte first. -/
def encode (t : Text) : Bytes :=
  (units t).flatMap bigEndian

/-- First half of a pair. -/
def isHigh (u : UInt16) : Bool :=
  0xD800 ≤ u && u < 0xDC00

/-- Second half of a pair. -/
def isLow (u : UInt16) : Bool :=
  0xDC00 ≤ u && u < 0xE000

/-- The code point of a unit. -/
def ofUnit (u : UInt16) : CodePoint :=
  ⟨u.toNat, Nat.lt_trans u.toNat_lt (by decide)⟩

/-- The code point that a high and a low surrogate stand for. -/
def ofPair (high low : UInt16) : CodePoint :=
  ⟨0x10000 + (high.toNat % 0x400) * 0x400 + low.toNat % 0x400, by omega⟩

/-- The text of code units in which every surrogate belongs to a pair. -/
def decodeUnits? : List UInt16 → Option Text
  | [] => some []
  | u :: rest =>
    if isHigh u then
      match rest with
      | v :: rest => if isLow v then (decodeUnits? rest).map (ofPair u v :: ·) else none
      | [] => none
    else if isLow u then none
    else (decodeUnits? rest).map (ofUnit u :: ·)

/-- Which byte of a unit comes first. -/
inductive ByteOrder where
  | littleEndian
  | bigEndian
deriving DecidableEq

/-- The unit of two bytes. -/
def ByteOrder.unit : ByteOrder → UInt8 → UInt8 → UInt16
  | .littleEndian, a, b => .ofNat (b.toNat * 0x100 + a.toNat)
  | .bigEndian, a, b => .ofNat (a.toNat * 0x100 + b.toNat)

/-- The units of an even number of bytes. -/
def ByteOrder.units? (order : ByteOrder) : Bytes → Option (List UInt16)
  | [] => some []
  | [_] => none
  | a :: b :: rest => (order.units? rest).map (order.unit a b :: ·)

/-- The text of well-formed bytes in a given order. -/
def decode? (order : ByteOrder) (bytes : Bytes) : Option Text :=
  (order.units? bytes).bind decodeUnits?

/-- The mark that says which byte of a unit comes first. -/
def mark : ByteOrder → Bytes
  | .littleEndian => [0xFF, 0xFE]
  | .bigEndian => [0xFE, 0xFF]

end DottedKeys.Utf16
