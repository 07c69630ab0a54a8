import DottedKeys.Text.Utf16

/-!
# UTF-32

Every code point takes four bytes, in one order or the other. Reading is strict: neither a surrogate
nor anything beyond the last code point is accepted, and no byte is left over.
-/

namespace DottedKeys.Utf32

open Utf16 (ByteOrder)

/-- The number of four bytes. -/
def number : ByteOrder → UInt8 → UInt8 → UInt8 → UInt8 → Nat
  | .littleEndian, a, b, c, d =>
    a.toNat + 0x100 * b.toNat + 0x10000 * c.toNat + 0x1000000 * d.toNat
  | .bigEndian, a, b, c, d =>
    0x1000000 * a.toNat + 0x10000 * b.toNat + 0x100 * c.toNat + d.toNat

/-- The character of a number. -/
def scalar? (n : Nat) : Option CodePoint :=
  (CodePoint.ofNat? n).filter (!·.isSurrogate)

/-- The text of well-formed bytes in a given order. -/
def decode? (order : ByteOrder) : Bytes → Option Text
  | [] => some []
  | a :: b :: c :: d :: rest => do
    let point ← scalar? (number order a b c d)
    return point :: (← decode? order rest)
  | _ => none

/-- The mark that says which byte of a number comes first. -/
def mark : ByteOrder → Bytes
  | .littleEndian => [0xFF, 0xFE, 0x00, 0x00]
  | .bigEndian => [0x00, 0x00, 0xFE, 0xFF]

end DottedKeys.Utf32
