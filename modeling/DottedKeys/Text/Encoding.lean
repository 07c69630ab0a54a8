import DottedKeys.Text.Utf32

/-!
# Encodings of a properties file

Decoding takes the whole file at once, so a file is text as a whole or not at all. An encoding in
units of several bytes that does not say which byte comes first has to be told by a mark at the
beginning of the file; without one, it gives up the file only once it has found it well-formed.
`load_properties` decodes a file like this before any of it is parsed.
-/

namespace DottedKeys

open Utf16 (ByteOrder)

/-- Encodings that a properties file may be in. -/
inductive Encoding where
  | ascii
  | latin1
  | utf8
  | utf8Marked
  | utf16
  | utf16In (order : ByteOrder)
  | utf32
  | utf32In (order : ByteOrder)
  /-- The encoding in which nothing is text. -/
  | undefined
deriving DecidableEq

namespace Encoding

/-- Why bytes are no text. -/
inductive Fault where
  /-- Some of the bytes stand for nothing. -/
  | undecodable
  /-- The bytes are given up as a whole. -/
  | rejected
deriving DecidableEq

/-- Bytes that do not say in which order they come are given up. -/
@[match_pattern]
abbrev Fault.noByteOrderMark : Fault := rejected

/-- The code point of a byte that stands for itself. -/
def ofByte (b : UInt8) : CodePoint :=
  ⟨b.toNat, Nat.lt_trans b.toNat_lt (by decide)⟩

/-- The mark that may open UTF-8. -/
def utf8Mark : Bytes := [0xEF, 0xBB, 0xBF]

/-- Decode UTF-8 that may open with its mark. A file that ends inside the mark holds no text. -/
def decodeMarked? (bytes : Bytes) : Option Text :=
  if bytes.isPrefixOf utf8Mark then some []
  else Utf8.decode? (if utf8Mark.isPrefixOf bytes then bytes.drop 3 else bytes)

/-- The order that bytes say they are in. -/
def orderOf? (mark : ByteOrder → Bytes) (bytes : Bytes) : Option ByteOrder :=
  [.littleEndian, .bigEndian].find? fun order => (mark order).isPrefixOf bytes

/-- Decode units of several bytes that a mark at the beginning says the order of. Without it only the
empty file is text; ill-formed bytes count as such before the missing mark does. -/
def decodeByMark (mark : ByteOrder → Bytes) (decode? : ByteOrder → Bytes → Option Text)
    (bytes : Bytes) : Except Fault Text :=
  match orderOf? mark bytes with
  | some order => (decode? order (bytes.drop (mark order).length)).elim (.error .undecodable) .ok
  | none =>
    match decode? .littleEndian bytes with
    | none => .error .undecodable
    | some [] => .ok []
    | some (_ :: _) => .error .noByteOrderMark

/-- The text of a file. -/
def decode : Encoding → Bytes → Except Fault Text
  | .latin1, bytes => .ok (bytes.map ofByte)
  | .utf16, bytes => decodeByMark Utf16.mark Utf16.decode? bytes
  | .utf32, bytes => decodeByMark Utf32.mark Utf32.decode? bytes
  | .ascii, bytes => if bytes.all (· < 0x80) then .ok (bytes.map ofByte) else .error .undecodable
  | .utf8, bytes => (Utf8.decode? bytes).elim (.error .undecodable) .ok
  | .utf8Marked, bytes => (decodeMarked? bytes).elim (.error .undecodable) .ok
  | .utf16In order, bytes => (Utf16.decode? order bytes).elim (.error .undecodable) .ok
  | .utf32In order, bytes => (Utf32.decode? order bytes).elim (.error .undecodable) .ok
  | .undefined, _ => .error .rejected

end Encoding

end DottedKeys
