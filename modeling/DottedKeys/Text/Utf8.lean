import DottedKeys.Text

/-!
# UTF-8

Generated source is written as UTF-8, with a question mark for each surrogate, which UTF-8 has no
bytes for. Reading is strict: every code point takes its shortest form, and no surrogate and nothing
beyond the last code point is accepted. `stage_source` writes its contents in this encoding, and
`write_archive` the name of a member.
-/

namespace DottedKeys

/-- The contents of a file. -/
abbrev Bytes := List UInt8

namespace Utf8

/-- The continuation byte that carries the low six bits of a number. -/
def continuation (n : Nat) : UInt8 :=
  .ofNat (0x80 + n % 64)

/-- The bytes of one code point; a surrogate is written as a question mark. -/
def encodePoint (c : CodePoint) : Bytes :=
  if c.isSurrogate then [0x3F]
  else if c.val < 0x80 then [.ofNat c.val]
  else if c.val < 0x800 then [.ofNat (0xC0 + c.val / 64), continuation c.val]
  else if c.val < 0x10000 then
    [.ofNat (0xE0 + c.val / 4096), continuation (c.val / 64), continuation c.val]
  else
    [.ofNat (0xF0 + c.val / 262144), continuation (c.val / 4096), continuation (c.val / 64),
      continuation c.val]

/-- The bytes of a text. -/
def encode (t : Text) : Bytes :=
  t.flatMap encodePoint

/-- A code point of which some bytes are still to come: how many, the least number that needs so
long a form, and the bits read so far. -/
structure Pending where
  missing : Nat
  least : Nat
  bits : Nat

/-- What a byte that opens a longer form announces. -/
def Pending.ofLead? (b : UInt8) : Option Pending :=
  if 0xC0 ≤ b && b < 0xE0 then some ⟨1, 0x80, b.toNat - 0xC0⟩
  else if 0xE0 ≤ b && b < 0xF0 then some ⟨2, 0x800, b.toNat - 0xE0⟩
  else if 0xF0 ≤ b && b < 0xF8 then some ⟨3, 0x10000, b.toNat - 0xF0⟩
  else none

/-- The character of a finished form, if the form was the shortest for it. -/
def scalar? (least bits : Nat) : Option CodePoint :=
  (CodePoint.ofNat? bits).filter fun c => least ≤ bits && !c.isSurrogate

/-- Read bytes, the first of which may have to finish a code point. -/
def decodeAfter : Option Pending → Bytes → Option Text
  | none, [] => some []
  | some _, [] => none
  | none, b :: rest =>
    if b < 0x80 then do
      let c ← CodePoint.ofNat? b.toNat
      return c :: (← decodeAfter none rest)
    else do decodeAfter (some (← Pending.ofLead? b)) rest
  | some pending, b :: rest =>
    if 0x80 ≤ b && b < 0xC0 then
      let bits := pending.bits * 64 + (b.toNat - 0x80)
      if pending.missing = 1 then do
        let c ← scalar? pending.least bits
        return c :: (← decodeAfter none rest)
      else decodeAfter (some ⟨pending.missing - 1, pending.least, bits⟩) rest
    else none

/-- The text of well-formed bytes. -/
def decode? (bytes : Bytes) : Option Text :=
  decodeAfter none bytes

end Utf8

end DottedKeys
