import DottedKeys.Text.Flaw
import DottedKeys.Text.Utf8

/-!
# Archives

An archive holds named members. Its container is a ZIP file: a record for each member with its
contents, a directory of the members, and a closing record. Members are deflated in stored blocks,
and dated to the first day that the format can express. `write_archive` leaves such a container with
one member.
-/

namespace DottedKeys

/-- A file inside an archive. -/
structure Member where
  name : Text
  /-- The number of the compression method. -/
  method : Nat
  contents : Bytes
deriving DecidableEq

namespace Archive

/-- The number of the deflate method. -/
def deflated : Nat := 8

/-- The name of a member ends before the first null. -/
def memberName (entry : Text) : Text :=
  entry.takeWhile (· ≠ CodePoint.null)

/-- Without a null, a name is that of its member as a whole. -/
theorem memberName_eq_self {entry : Text} (clear : CodePoint.null ∉ entry) :
    memberName entry = entry := by
  have each : ∀ c ∈ entry, decide (c ≠ CodePoint.null) = true := by
    intro c inside
    rw [decide_eq_true_eq]
    rintro rfl
    exact clear inside
  have whole : memberName (entry ++ []) = entry ++ [] := List.takeWhile_append_of_pos each
  rwa [List.append_nil] at whole

/-- What keeps a text from being the name of a member, which is written as UTF-8. -/
def nameFlaw? (name : Text) : Option NameFlaw :=
  name.flaw? (!·.isSurrogate)

/-- A number in `width` bytes, the least significant first. -/
def littleEndian : (width n : Nat) → Bytes
  | 0, _ => []
  | width + 1, n => .ofNat (n % 0x100) :: littleEndian width (n / 0x100)

/-- Numbers with their widths, one after the other. -/
def fields (numbers : List (Nat × Nat)) : Bytes :=
  numbers.flatMap fun number => littleEndian number.1 number.2

/-- One bit of the cyclic redundancy check. -/
def crcBit (state : UInt32) : UInt32 :=
  if state &&& 1 = 1 then (state >>> 1) ^^^ 0xEDB88320 else state >>> 1

/-- One byte of the cyclic redundancy check. -/
def crcByte (state : UInt32) (b : UInt8) : UInt32 :=
  crcBit <| crcBit <| crcBit <| crcBit <| crcBit <| crcBit <| crcBit <| crcBit <|
    state ^^^ b.toUInt32

/-- The check sum of contents. -/
def crc32 (contents : Bytes) : Nat :=
  (contents.foldl crcByte 0xFFFFFFFF ^^^ 0xFFFFFFFF).toNat

/-- A stored block: whether it is the last, its length, and the same length with all bits turned. -/
def storedBlock (last : Bool) (contents : Bytes) : Bytes :=
  fields [(1, last.toNat), (2, contents.length), (2, 0xFFFF - contents.length)] ++ contents

/-- Contents in stored blocks, each as long as a block can be but for the last. Where there is
nothing to store, a block of a code that is always there is shorter. -/
def deflate (contents : Bytes) : Bytes :=
  if contents = [] then [0x03, 0x00]
  else if contents.length ≤ 0xFFFF then storedBlock true contents
  else storedBlock false (contents.take 0xFFFF) ++ deflate (contents.drop 0xFFFF)
termination_by contents.length
decreasing_by simp only [List.length_drop]; omega

/-- The first of January 1980, as the format writes it. -/
def firstDay : Nat := 0x21

/-- The flags of a member, which say whether its name is more than ASCII. -/
def flags (m : Member) : Nat :=
  if m.name.all (·.val < 0x80) then 0 else 0x800

/-- The fields that the record of a member and its line in the directory share. -/
def sharedFields (m : Member) : List (Nat × Nat) :=
  [(2, 20), (2, flags m), (2, m.method), (2, 0), (2, firstDay), (4, crc32 m.contents),
    (4, (deflate m.contents).length), (4, m.contents.length), (2, (Utf8.encode m.name).length),
    (2, 0)]

/-- The record of a member, contents included. -/
def record (m : Member) : Bytes :=
  fields ((4, 0x04034B50) :: sharedFields m) ++ Utf8.encode m.name ++ deflate m.contents

/-- The line of a member in the directory; `offset` is where its record starts. -/
def directoryLine (offset : Nat) (m : Member) : Bytes :=
  fields ([(4, 0x02014B50), (2, 0x0314)] ++ sharedFields m ++
    [(2, 0), (2, 0), (2, 0), (4, 0x01800000), (4, offset)]) ++ Utf8.encode m.name

/-- The directory of members whose records start at `offset`. -/
def directory : (offset : Nat) → List Member → Bytes
  | _, [] => []
  | offset, m :: rest => directoryLine offset m ++ directory (offset + (record m).length) rest

/-- The container of members. -/
def container (members : List Member) : Bytes :=
  let records := members.flatMap record
  let lines := directory 0 members
  records ++ lines ++
    fields [(4, 0x06054B50), (2, 0), (2, 0), (2, members.length), (2, members.length),
      (4, lines.length), (4, records.length), (2, 0)]

end Archive

end DottedKeys
