import DottedKeys.Proofs.Disk.Archive.Inflate
import DottedKeys.Proofs.Text.Utf8

/-!
# Opening a container that was written

The container of members opens as these members (`open?_container`), as long as its fields have room
for what they say (`Fits`). Each field is found where the widths of those before it put it
(`numberAt_fields`); from there on the closing record leads to the directory
(`closingOffset?_container`), the directory to the records (`lines?_directory`), and each record to its
member (`memberAt?_record`).
-/

namespace DottedKeys.Archive

/-! ## Fields -/

/-- How many bytes some fields take. -/
def widthOf : List (Nat × Nat) → Nat
  | [] => 0
  | (width, _) :: more => widthOf more + width

theorem widthOf_cons (number : Nat × Nat) (more : List (Nat × Nat)) :
    widthOf (number :: more) = number.1 + widthOf more :=
  Nat.add_comm _ _

theorem fields_cons (number : Nat × Nat) (more : List (Nat × Nat)) :
    fields (number :: more) = littleEndian number.1 number.2 ++ fields more :=
  List.flatMap_cons

@[simp] theorem length_fields (numbers : List (Nat × Nat)) :
    (fields numbers).length = widthOf numbers := by
  induction numbers with
  | nil => rfl
  | cons number more ih =>
    rw [fields_cons, List.length_append, length_littleEndian, ih, widthOf_cons]

theorem numberAt_append (before : Bytes) (offset width : Nat) (rest : Bytes) :
    numberAt (before.length + offset) width (before ++ rest) = numberAt offset width rest := by
  rw [numberAt, numberAt, List.drop_length_add_append]

/-- A field is found behind the widths of those before it. -/
theorem numberAt_fields {numbers : List (Nat × Nat)} {bytes rest : Bytes}
    (front : bytes = fields numbers ++ rest) (i : Nat) {width n : Nat}
    (there : numbers[i]? = some (width, n)) (fits : n < 0x100 ^ width) :
    numberAt (widthOf (numbers.take i)) width bytes = n := by
  subst front
  induction numbers generalizing i with
  | nil => simp at there
  | cons number more ih =>
    rw [fields_cons, List.append_assoc]
    cases i with
    | zero =>
      obtain rfl : number = (width, n) := by simpa using there
      show ofLittleEndian ((littleEndian width n ++ _).take width) = n
      rw [List.take_left' (length_littleEndian width n), ofLittleEndian_littleEndian fits]
    | succ i =>
      have behind := numberAt_append (littleEndian number.1 number.2) (widthOf (more.take i)) width
        (fields more ++ rest)
      rw [length_littleEndian] at behind
      rw [List.take_succ_cons, widthOf_cons]
      exact behind.trans (ih i there)

/-! ## Members -/

/-- The fields of a record. -/
def recordFields (m : Member) : List (Nat × Nat) :=
  (4, 0x04034B50) :: sharedFields m

/-- The fields of a line in the directory. -/
def lineFields (offset : Nat) (m : Member) : List (Nat × Nat) :=
  [(4, 0x02014B50), (2, 0x0314)] ++ sharedFields m ++
    [(2, 0), (2, 0), (2, 0), (4, 0x01800000), (4, offset)]

theorem length_recordFields (m : Member) : (fields (recordFields m)).length = 30 :=
  length_fields _

theorem length_lineFields (offset : Nat) (m : Member) :
    (fields (lineFields offset m)).length = 46 :=
  length_fields _

theorem record_append (m : Member) (after : Bytes) :
    record m ++ after =
      fields (recordFields m) ++ (Utf8.encode m.name ++ (deflate m.contents ++ after)) := by
  simp only [record, recordFields, List.append_assoc]

theorem directoryLine_append (offset : Nat) (m : Member) (after : Bytes) :
    directoryLine offset m ++ after =
      fields (lineFields offset m) ++ (Utf8.encode m.name ++ after) :=
  List.append_assoc _ _ _

/-- What the directory notes of a member. -/
def lineOf (offset : Nat) (m : Member) : Line where
  flags := flags m
  method := m.method
  checkSum := crc32 m.contents
  packed := (deflate m.contents).length
  unpacked := m.contents.length
  offset := offset
  name := Utf8.encode m.name

/-- What the directory notes of members whose records start at `offset`. -/
def linesFrom : (offset : Nat) → List Member → List Line
  | _, [] => []
  | offset, m :: rest => lineOf offset m :: linesFrom (offset + (record m).length) rest

/-- A member that a record has room for, with the name as it is and the contents deflated. -/
structure Writable (m : Member) : Prop where
  method : m.method = deflated
  nameable : nameFlaw? m.name = none
  name : (Utf8.encode m.name).length < 0x10000
  packed : (deflate m.contents).length < 0x100000000
  unpacked : m.contents.length < 0x100000000

theorem flags_lt (m : Member) : flags m < 0x10000 := by
  rw [flags]
  split <;> decide

theorem crc32_lt (contents : Bytes) : crc32 contents < 0x100000000 :=
  UInt32.toNat_lt _

theorem flags_not_encrypted (m : Member) : (flags m).testBit 0 = false := by
  rw [flags]
  split <;> rfl

/-- A name is read as it was written, marked as UTF-8 or not. -/
theorem nameText?_encode {m : Member} (nameable : nameFlaw? m.name = none) :
    nameText? (flags m) (Utf8.encode m.name) = some m.name := by
  rw [flags, nameText?]
  by_cases all_ascii : m.name.all (·.val < 0x80) = true
  · have ascii : ∀ c ∈ m.name, c.val < 0x80 := by simpa using all_ascii
    have back : ∀ c ∈ m.name, (if UInt8.ofNat c.val < 0x80 then Encoding.ofByte (.ofNat c.val)
        else upperHalf.getD ((UInt8.ofNat c.val).toNat - 0x80) '?') = c := by
      intro c inside
      have value := Utf8.toNat_ofNat (Nat.lt_trans (ascii c inside) (by decide))
      have short : UInt8.ofNat c.val < 0x80 := by
        rw [UInt8.lt_iff_toNat_lt, value]
        exact ascii c inside
      simp only [if_pos short, Encoding.ofByte, value]
    rw [if_pos all_ascii, if_neg (by decide), Utf8.encode_of_ascii ascii, List.map_map]
    exact congrArg some ((List.map_congr_left back).trans (List.map_id _))
  · have whole : ∀ c ∈ m.name, c.isSurrogate = false := by
      intro c inside
      simpa using (Text.flaw?_eq_none_iff.1 nameable).1 c inside
    rw [if_neg all_ascii, if_pos (by decide)]
    exact Utf8.decode?_encode whole

/-- A record gives its member, whatever stands around it. -/
theorem memberAt?_record {m : Member} (writable : Writable m) (before after : Bytes) :
    memberAt? (before ++ (record m ++ after)) before.length (lineOf before.length m) = some m := by
  have front := record_append m after
  have sign : numberAt 0 4 (record m ++ after) = 0x04034B50 :=
    numberAt_fields front 0 rfl (by decide)
  have flagged : numberAt 6 2 (record m ++ after) = flags m :=
    numberAt_fields front 2 rfl (flags_lt m)
  have named : numberAt 26 2 (record m ++ after) = (Utf8.encode m.name).length :=
    numberAt_fields front 9 rfl writable.name
  have plain : numberAt 28 2 (record m ++ after) = 0 := numberAt_fields front 10 rfl (by decide)
  have long : ¬ (record m ++ after).length < 30 := by
    rw [front, List.length_append, length_recordFields]
    omega
  have behind : (record m ++ after).drop 30 =
      Utf8.encode m.name ++ (deflate m.contents ++ after) := by
    rw [front, ← length_recordFields m, List.drop_left]
  have packed : (record m ++ after).drop (30 + (Utf8.encode m.name).length + 0) =
      deflate m.contents ++ after := by
    rw [Nat.add_zero, ← List.drop_drop, behind, List.drop_left]
  have clear : memberName m.name = m.name :=
    memberName_eq_self (Text.flaw?_eq_none_iff.1 writable.nameable).2
  have method : m.method = 8 := writable.method
  rw [memberAt?, List.drop_left]
  simp only [lineOf, sign, flagged, named, plain, long, packed, behind,
    nameText?_encode writable.nameable, method, unpack?, inflate?_deflate, flags_not_encrypted,
    List.take_left, Option.bind_eq_bind, Option.bind_some, clear]
  simp [← method]

/-- Records that stand behind some bytes give their members one after the other. -/
theorem mapM_memberAt?_linesFrom {members : List Member} (writable : ∀ m ∈ members, Writable m)
    (before after : Bytes) :
    (linesFrom before.length members).mapM (fun line =>
      memberAt? (before ++ (members.flatMap record ++ after)) line.offset line) = some members := by
  induction members generalizing before with
  | nil => rfl
  | cons m rest ih =>
    have first := memberAt?_record (writable m List.mem_cons_self) before (rest.flatMap record ++ after)
    have others := ih (fun other inside => writable other (List.mem_cons_of_mem m inside))
      (before ++ record m)
    rw [List.length_append, List.append_assoc] at others
    rw [linesFrom, List.mapM_cons, List.flatMap_cons, List.append_assoc]
    have here : (lineOf before.length m).offset = before.length := rfl
    simp only [here, first, others, Option.bind_eq_bind, Option.bind_some, pure]

/-! ## The directory -/

/-- A line of the directory is read, and reading goes on behind it. -/
theorem lines?_directoryLine {offset : Nat} (reach : offset < 0x100000000) {m : Member}
    (writable : Writable m) (rest : Bytes) :
    lines? (directoryLine offset m ++ rest) = (lines? rest).map (lineOf offset m :: ·) := by
  have front := directoryLine_append offset m rest
  have sign : numberAt 0 4 (directoryLine offset m ++ rest) = 0x02014B50 :=
    numberAt_fields front 0 rfl (by decide)
  have flagged : numberAt 8 2 (directoryLine offset m ++ rest) = flags m :=
    numberAt_fields front 3 rfl (flags_lt m)
  have method : numberAt 10 2 (directoryLine offset m ++ rest) = m.method :=
    numberAt_fields front 4 rfl (by rw [writable.method]; decide)
  have checked : numberAt 16 4 (directoryLine offset m ++ rest) = crc32 m.contents :=
    numberAt_fields front 7 rfl (crc32_lt m.contents)
  have packed : numberAt 20 4 (directoryLine offset m ++ rest) = (deflate m.contents).length :=
    numberAt_fields front 8 rfl writable.packed
  have unpacked : numberAt 24 4 (directoryLine offset m ++ rest) = m.contents.length :=
    numberAt_fields front 9 rfl writable.unpacked
  have named : numberAt 28 2 (directoryLine offset m ++ rest) = (Utf8.encode m.name).length :=
    numberAt_fields front 10 rfl writable.name
  -- Neither a further field nor a comment stands behind the name.
  have plain : numberAt 30 2 (directoryLine offset m ++ rest) = 0 :=
    numberAt_fields front 11 rfl (by decide)
  have uncommented : numberAt 32 2 (directoryLine offset m ++ rest) = 0 :=
    numberAt_fields front 12 rfl (by decide)
  have placed : numberAt 42 4 (directoryLine offset m ++ rest) = offset :=
    numberAt_fields front 16 rfl reach
  have long : ¬ (directoryLine offset m ++ rest).length < 46 := by
    rw [front, List.length_append, length_lineFields]
    omega
  have some_bytes : directoryLine offset m ++ rest ≠ [] := fun none_left => long (by simp [none_left])
  have behind : (directoryLine offset m ++ rest).drop 46 = Utf8.encode m.name ++ rest := by
    rw [front, ← length_lineFields offset m, List.drop_left]
  have onward : (directoryLine offset m ++ rest).drop (46 + (Utf8.encode m.name).length + (0 + 0)) =
      rest := by
    rw [Nat.add_zero, ← List.drop_drop, behind, List.drop_left]
  rw [lines?, if_neg some_bytes, dif_neg long]
  simp only [sign, flagged, method, checked, packed, unpacked, named, plain, uncommented, placed,
    behind, onward, List.take_left, ne_eq, not_true_eq_false, if_false]
  rfl

/-- The lines of a directory are those of its members. -/
theorem lines?_directory {members : List Member} (writable : ∀ m ∈ members, Writable m) {offset : Nat}
    (reach : offset + (members.flatMap record).length < 0x100000000) :
    lines? (directory offset members) = some (linesFrom offset members) := by
  induction members generalizing offset with
  | nil => rw [directory, lines?, if_pos rfl, linesFrom]
  | cons m rest ih =>
    rw [List.flatMap_cons, List.length_append] at reach
    have onward : offset + (record m).length + (rest.flatMap record).length < 0x100000000 := by omega
    have others := ih (fun other inside => writable other (List.mem_cons_of_mem m inside)) onward
    rw [directory, linesFrom, lines?_directoryLine (by omega) (writable m List.mem_cons_self), others,
      Option.map_some]

/-! ## The closing record -/

/-- The fields of the closing record. -/
def closingFields (members : List Member) : List (Nat × Nat) :=
  [(4, 0x06054B50), (2, 0), (2, 0), (2, members.length), (2, members.length),
    (4, (directory 0 members).length), (4, (members.flatMap record).length), (2, 0)]

theorem container_eq (members : List Member) :
    container members =
      members.flatMap record ++ directory 0 members ++ fields (closingFields members) := rfl

/-- The closing record is what a container ends in. -/
theorem drop_container (members : List Member) :
    (container members).drop ((directory 0 members).length + (members.flatMap record).length) =
      fields (closingFields members) := by
  rw [Nat.add_comm, ← List.length_append, container_eq, List.drop_left]

/-- The closing record is found at the end. -/
theorem closingOffset?_container (members : List Member) :
    closingOffset? (container members) =
      some ((directory 0 members).length + (members.flatMap record).length) := by
  have width : (fields (closingFields members)).length = 22 := length_fields _
  have length : (container members).length =
      (directory 0 members).length + (members.flatMap record).length + 22 := by
    rw [container_eq, List.length_append, List.length_append, width]
    omega
  have signed : closingSign.isPrefixOf (fields (closingFields members)) = true :=
    List.isPrefixOf_iff_prefix.2 (List.prefix_append _ _)
  have front : fields (closingFields members) = fields (closingFields members) ++ [] :=
    (List.append_nil _).symm
  have uncommented : numberAt 20 2 (fields (closingFields members)) = 0 :=
    numberAt_fields front 7 rfl (by decide)
  rw [closingOffset?, length, closingLength, if_neg (by omega)]
  simp only [Nat.add_sub_cancel, drop_container, signed, uncommented, Bool.true_and, decide_true,
    if_true]

/-! ## The container -/

/-- Members whose container has room for what it says of them. -/
structure Fits (members : List Member) : Prop where
  writable : ∀ m ∈ members, Writable m
  records : (members.flatMap record).length < 0x100000000
  directory : (directory 0 members).length < 0x100000000

theorem length_record (m : Member) :
    (record m).length = 30 + (Utf8.encode m.name).length + (deflate m.contents).length := by
  rw [record, List.length_append, List.length_append, ← length_recordFields m]
  rfl

theorem length_directoryLine (offset : Nat) (m : Member) :
    (directoryLine offset m).length = 46 + (Utf8.encode m.name).length := by
  rw [directoryLine, List.length_append, ← length_lineFields offset m]
  rfl

/-- A container has room for one member with less than two gibibytes of contents. -/
theorem fits_singleton {m : Member} (method : m.method = deflated) (nameable : nameFlaw? m.name = none)
    (name : (Utf8.encode m.name).length < 0x10000) (contents : m.contents.length < 0x80000000) :
    Fits [m] := by
  have packed := length_deflate_le m.contents
  refine ⟨?_, ?_, ?_⟩
  · intro other among
    obtain rfl := List.mem_singleton.1 among
    exact ⟨method, nameable, name, by omega, by omega⟩
  · rw [List.flatMap_singleton, length_record]
    omega
  · rw [directory, directory, List.append_nil, length_directoryLine]
    omega

/-- **A container opens as the members that it was written from.** -/
theorem open?_container {members : List Member} (fits : Fits members) :
    open? (container members) = some members := by
  have front : fields (closingFields members) = fields (closingFields members) ++ [] :=
    (List.append_nil _).symm
  have size : numberAt 12 4 (fields (closingFields members)) = (directory 0 members).length :=
    numberAt_fields front 5 rfl fits.directory
  have offset : numberAt 16 4 (fields (closingFields members)) = (members.flatMap record).length :=
    numberAt_fields front 6 rfl fits.records
  have middle : ((container members).drop (members.flatMap record).length).take
      (directory 0 members).length = directory 0 members := by
    rw [container_eq, List.append_assoc, List.drop_left, List.take_left]
  have reach : 0 + (members.flatMap record).length < 0x100000000 := by
    rw [Nat.zero_add]
    exact fits.records
  have noted := lines?_directory fits.writable reach
  have room : ∀ n m : Nat, ¬ n + m < n := fun n m => Nat.not_lt_of_le (Nat.le_add_right n m)
  have read := mapM_memberAt?_linesFrom fits.writable []
    (directory 0 members ++ fields (closingFields members))
  rw [List.nil_append, ← List.append_assoc, ← container_eq, List.length_nil] at read
  rw [open?, closingOffset?_container]
  simp only [Option.bind_eq_bind, Option.bind_some, drop_container, size, offset,
    Nat.add_sub_cancel_left, middle, noted, room, if_false, read]

end DottedKeys.Archive
