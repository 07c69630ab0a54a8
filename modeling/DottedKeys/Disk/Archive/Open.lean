import DottedKeys.Disk.Archive
import DottedKeys.Disk.Archive.Inflate
import DottedKeys.Text.Encoding

/-!
# Opening a container

Any bytes that end in the closing record of a container are one, whatever stands before the members
or, as a comment, behind the record. A container is opened if all its members can be read: their
records are where the directory says, and their contents have the length and the check sum that were
noted of them. What `write_archive` wrote is read back by it.
-/

namespace DottedKeys.Archive

/-- The number that bytes spell, the least significant one first. -/
def ofLittleEndian : Bytes → Nat
  | [] => 0
  | b :: rest => b.toNat + 0x100 * ofLittleEndian rest

/-- The number in `width` bytes at an offset. -/
def numberAt (offset width : Nat) (bytes : Bytes) : Nat :=
  ofLittleEndian ((bytes.drop offset).take width)

/-- The last offset at which a sign stands. -/
def lastOffset? (sign : Bytes) : Bytes → Option Nat
  | [] => none
  | b :: rest =>
    match lastOffset? sign rest with
    | some offset => some (offset + 1)
    | none => if sign.isPrefixOf (b :: rest) then some 0 else none

/-- How a closing record starts. -/
def closingSign : Bytes := littleEndian 4 0x06054B50

/-- How long a closing record is without its comment. -/
def closingLength : Nat := 22

/-- Where the closing record starts: at the very end if it has no comment, else at its last sign in
that part of the bytes that a comment can fill. -/
def closingOffset? (bytes : Bytes) : Option Nat :=
  if bytes.length < closingLength then none
  else
    let start := bytes.length - closingLength
    let record := bytes.drop start
    if closingSign.isPrefixOf record && numberAt 20 2 record = 0 then some start
    else
      let skipped := start - 0x10000
      match lastOffset? closingSign (bytes.drop skipped) with
      | some offset =>
        if skipped + offset + closingLength ≤ bytes.length then some (skipped + offset) else none
      | none => none

/-- What the directory notes of a member. -/
structure Line where
  flags : Nat
  method : Nat
  checkSum : Nat
  packed : Nat
  unpacked : Nat
  offset : Nat
  name : Bytes

/-- The lines of a directory. -/
def lines? (bytes : Bytes) : Option (List Line) :=
  if bytes = [] then some []
  else if h : bytes.length < 46 then none
  else if numberAt 0 4 bytes ≠ 0x02014B50 then none
  else
    let nameLength := numberAt 28 2 bytes
    let line : Line := {
      flags := numberAt 8 2 bytes
      method := numberAt 10 2 bytes
      checkSum := numberAt 16 4 bytes
      packed := numberAt 20 4 bytes
      unpacked := numberAt 24 4 bytes
      offset := numberAt 42 4 bytes
      name := (bytes.drop 46).take nameLength }
    let more := numberAt 30 2 bytes + numberAt 32 2 bytes
    (lines? (bytes.drop (46 + nameLength + more))).map (line :: ·)
termination_by bytes.length
decreasing_by
  rw [List.length_drop]
  omega

/-- The upper half of the code page that names are in unless they are marked as UTF-8. -/
def upperHalf : Text :=
  ("ÇüéâäàåçêëèïîìÄÅÉæÆôöòûùÿÖÜ¢£¥₧ƒáíóúñÑªº¿⌐¬½¼¡«»░▒▓│┤╡╢╖╕╣║╗╝╜╛┐" : Text) ++
    "└┴┬├─┼╞╟╚╔╩╦╠═╬╧╨╤╥╙╘╒╓╫╪┘┌█▄▌▐▀αßΓπΣσµτΦΘΩδ∞φε∩≡±≥≤⌠⌡÷≈°∙·√ⁿ²■\xa0"

/-- The text of a name, as its flags say. -/
def nameText? (flags : Nat) (name : Bytes) : Option Text :=
  if flags.testBit 11 then Utf8.decode? name
  else
    some (name.map fun b =>
      if b < 0x80 then Encoding.ofByte b else upperHalf.getD (b.toNat - 0x80) '?')

/-- The contents that packed bytes stand for. -/
def unpack? (method : Nat) (packed : Bytes) : Option Bytes :=
  match method with
  | 0 => some packed
  | 8 => inflate? packed
  | _ => none

/-- The member of a line, whose record starts at `start`. -/
def memberAt? (bytes : Bytes) (start : Nat) (line : Line) : Option Member := do
  let record := bytes.drop start
  if record.length < 30 || numberAt 0 4 record ≠ 0x04034B50 then none
  let nameLength := numberAt 26 2 record
  let name ← nameText? line.flags line.name
  let again ← nameText? (numberAt 6 2 record) ((record.drop 30).take nameLength)
  if name ≠ again || line.flags.testBit 0 then none
  let packed := (record.drop (30 + nameLength + numberAt 28 2 record)).take line.packed
  let contents ← unpack? line.method packed
  if contents.length ≠ line.unpacked || crc32 contents ≠ line.checkSum then none
  return ⟨memberName name, line.method, contents⟩

/-- The members of the container that some bytes are. -/
def open? (bytes : Bytes) : Option (List Member) := do
  let closing ← closingOffset? bytes
  let record := bytes.drop closing
  let size := numberAt 12 4 record
  let offset := numberAt 16 4 record
  if closing < size then none
  let lines ← lines? ((bytes.drop (closing - size)).take size)
  lines.mapM fun line =>
    if closing + line.offset < size + offset then none
    else memberAt? bytes (closing + line.offset - (size + offset)) line

end DottedKeys.Archive
