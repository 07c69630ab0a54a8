import DottedKeys.Disk.Archive.Open
import Mathlib.Algebra.Group.Nat.Defs

/-!
# Inflating what was deflated

`deflate` writes stored blocks, or a block of the code that is always there if there is nothing to
store. Both are read back bit by bit: `takeNumber?_bitsOf` reads the number that some bytes spell,
`takeNumbers?_bitsOf` the bytes themselves, and `takeBlocks?_storedBlock` a whole stored block, so
that `inflate?_deflate` is an induction on the blocks.
-/

namespace DottedKeys.Archive

/-! ## Numbers in bytes -/

@[simp] theorem length_littleEndian (width n : Nat) : (littleEndian width n).length = width := by
  induction width generalizing n with
  | zero => rfl
  | succ width ih => rw [littleEndian, List.length_cons, ih]

/-- A number is spelled by the bytes that it is written in, if these are enough. -/
theorem ofLittleEndian_littleEndian {width n : Nat} (fits : n < 0x100 ^ width) :
    ofLittleEndian (littleEndian width n) = n := by
  induction width generalizing n with
  | zero =>
    have zero : n = 0 := by simpa using fits
    rw [zero]
    rfl
  | succ width ih =>
    have high : n / 0x100 < 0x100 ^ width := by
      rw [Nat.div_lt_iff_lt_mul (by decide), ← Nat.pow_succ]
      exact fits
    have low : (UInt8.ofNat (n % 0x100)).toNat = n % 0x100 := by
      rw [UInt8.toNat_ofNat']
      omega
    rw [littleEndian, ofLittleEndian, ih high, low, Nat.mod_add_div]

/-! ## Bits -/

@[simp] theorem bitsOf_append (before after : Bytes) :
    bitsOf (before ++ after) = bitsOf before ++ bitsOf after :=
  List.flatMap_append

theorem bitsOf_cons (b : UInt8) (rest : Bytes) :
    bitsOf (b :: rest) = (List.range 8).map b.toNat.testBit ++ bitsOf rest :=
  List.flatMap_cons

@[simp] theorem length_bitsOf (bytes : Bytes) : (bitsOf bytes).length = 8 * bytes.length := by
  induction bytes with
  | nil => rfl
  | cons b rest ih =>
    rw [bitsOf_cons, List.length_append, ih, List.length_cons]
    simp only [List.length_map, List.length_range]
    omega

/-- Reading bits that are those of a number goes on with the bits behind them. -/
theorem takeNumber?_testBit (width more n : Nat) (rest : Bits) :
    takeNumber? (width + more) ((List.range width).map n.testBit ++ rest) =
      (takeNumber? more rest).map fun read => (n % 2 ^ width + 2 ^ width * read.1, read.2) := by
  induction width generalizing n with
  | zero =>
    simp only [Nat.zero_add, List.range_zero, List.map_nil, List.nil_append, Nat.pow_zero,
      Nat.mod_one, Nat.one_mul]
    exact Option.map_id'.symm
  | succ width ih =>
    have shifted : (List.range width).map (n.testBit ∘ Nat.succ) =
        (List.range width).map (n / 2).testBit :=
      List.map_congr_left fun i _ => Nat.testBit_succ n i
    rw [Nat.succ_add, List.range_succ_eq_map, List.map_cons, List.map_map, shifted, List.cons_append,
      takeNumber?, ih]
    cases takeNumber? more rest with
    | none => rfl
    | some read =>
      have first : (n.testBit 0).toNat = n % 2 := by
        rw [Nat.testBit_zero]
        rcases Nat.mod_two_eq_zero_or_one n with bit | bit <;> simp [bit]
      have whole : n % 2 + 2 * (n / 2 % 2 ^ width + 2 ^ width * read.1) =
          n % 2 ^ (width + 1) + 2 ^ (width + 1) * read.1 := by
        rw [Nat.pow_succ', Nat.mod_mul, Nat.mul_add, Nat.mul_assoc, Nat.add_assoc]
      rw [Option.map_some, Option.map_some, ← whole, ← first]
      rfl

/-- The bits of bytes are those of the number that the bytes spell. -/
theorem takeNumber?_bitsOf (bytes : Bytes) (rest : Bits) :
    takeNumber? (8 * bytes.length) (bitsOf bytes ++ rest) = some (ofLittleEndian bytes, rest) := by
  induction bytes with
  | nil => rfl
  | cons b bytes ih =>
    have width : 8 * (b :: bytes).length = 8 + 8 * bytes.length := by
      rw [List.length_cons]
      omega
    have low : b.toNat % 2 ^ 8 = b.toNat := Nat.mod_eq_of_lt b.toNat_lt
    rw [width, bitsOf_cons, List.append_assoc, takeNumber?_testBit, ih, Option.map_some, low]
    rfl

theorem takeNumber?_littleEndian (width : Nat) {n : Nat} (fits : n < 0x100 ^ width) (rest : Bits) :
    takeNumber? (8 * width) (bitsOf (littleEndian width n) ++ rest) = some (n, rest) := by
  have read := takeNumber?_bitsOf (littleEndian width n) rest
  rwa [length_littleEndian, ofLittleEndian_littleEndian fits] at read

/-- The bits of bytes, read byte by byte. -/
theorem takeNumbers?_bitsOf (bytes : Bytes) (rest : Bits) :
    takeNumbers? 8 bytes.length (bitsOf bytes ++ rest) = some (bytes.map UInt8.toNat, rest) := by
  induction bytes with
  | nil => rfl
  | cons b bytes ih =>
    have byte : takeNumber? 8 (bitsOf [b] ++ (bitsOf bytes ++ rest)) =
        some (ofLittleEndian [b], bitsOf bytes ++ rest) := takeNumber?_bitsOf [b] _
    have front : bitsOf (b :: bytes) = bitsOf [b] ++ bitsOf bytes := bitsOf_append [b] bytes
    rw [List.length_cons, takeNumbers?, front, List.append_assoc, byte]
    simp [ih, ofLittleEndian]

/-! ## Blocks -/

/-- Bytes that are stored behind their length, from the next full byte on. -/
theorem takeStored?_append {contents : Bytes} (fits : contents.length ≤ 0xFFFF) {skipped : Bits}
    (short : skipped.length < 8) (more back : Bytes) :
    takeStored? (skipped ++ bitsOf (littleEndian 2 contents.length ++
        littleEndian 2 (0xFFFF - contents.length) ++ contents ++ more)) back =
      some (contents.reverse ++ back, bitsOf more) := by
  have length := takeNumber?_littleEndian 2 (by omega : contents.length < 0x100 ^ 2)
  have turned := takeNumber?_littleEndian 2 (by omega : 0xFFFF - contents.length < 0x100 ^ 2)
  have aligned : (skipped ++ bitsOf (littleEndian 2 contents.length ++
      littleEndian 2 (0xFFFF - contents.length) ++ contents ++ more)).length % 8 = skipped.length := by
    rw [List.length_append, length_bitsOf]
    omega
  have sum : contents.length + (0xFFFF - contents.length) = 0xFFFF := by omega
  rw [takeStored?, aligned, List.drop_left, bitsOf_append, bitsOf_append, bitsOf_append,
    List.append_assoc, List.append_assoc, length]
  simp only [Option.bind_eq_bind, Option.bind_some, turned, sum, ne_eq, not_true_eq_false, if_false,
    takeNumbers?_bitsOf]
  simp [Function.comp_def]

theorem length_storedBlock (last : Bool) (contents : Bytes) :
    (storedBlock last contents).length = contents.length + 5 := by
  simp [storedBlock, fields]
  omega

/-- Deflating adds five bytes for each block at most. -/
theorem length_deflate_le (contents : Bytes) :
    (deflate contents).length ≤ contents.length + 5 * (contents.length / 0xFFFF + 1) := by
  induction contents using deflate.induct with
  | case1 => rw [deflate, if_pos rfl]; decide
  | case2 contents some_content short =>
    rw [deflate, if_neg some_content, if_pos short, length_storedBlock]
    omega
  | case3 contents some_content long ih =>
    rw [List.length_drop] at ih
    rw [deflate, if_neg some_content, if_neg long, List.length_append, length_storedBlock,
      List.length_take]
    omega

/-- A stored block is read to its end, whatever full bytes stand behind it. -/
theorem takeBlocks?_storedBlock (last : Bool) {contents : Bytes} (fits : contents.length ≤ 0xFFFF)
    (fuel : Nat) (more back : Bytes) :
    takeBlocks? (fuel + 1) (bitsOf (storedBlock last contents ++ more)) back =
      if last then some (back.reverse ++ contents)
      else takeBlocks? fuel (bitsOf more) (contents.reverse ++ back) := by
  have block : storedBlock last contents ++ more = .ofNat last.toNat ::
      (littleEndian 2 contents.length ++ littleEndian 2 (0xFFFF - contents.length) ++ contents ++
        more) := by
    cases last <;> simp [storedBlock, fields, littleEndian]
  have opening : (List.range 8).map (UInt8.ofNat last.toNat).toNat.testBit =
      last :: false :: false :: List.replicate 5 false := by
    cases last <;> rfl
  have stored := takeStored?_append fits (by decide : (List.replicate 5 false).length < 8) more back
  rw [block, bitsOf_cons, opening, takeBlocks?]
  simp only [List.cons_append, takeNumber?, Option.bind_eq_bind, Option.bind_some, pure, stored]
  cases last with
  | true => simp
  | false => simp

/-- The block of the code that is always there holds the end of the block and nothing else. -/
theorem takeBlocks?_end (fuel : Nat) (back : Bytes) :
    takeBlocks? (fuel + 1) (bitsOf [0x03, 0x00]) back = some back.reverse := by
  have opening : bitsOf [0x03, 0x00] = true :: true :: false :: List.replicate 13 false := by decide
  have symbol : takeSymbol? (code fixedLengths) (List.replicate 13 false) =
      some (256, List.replicate 6 false) := by decide +kernel
  rw [opening, takeBlocks?]
  generalize code fixedLengths = letters at symbol ⊢
  generalize List.replicate 13 false = bits at symbol ⊢
  simp only [takeNumber?, Option.bind_eq_bind, Option.bind_some, pure, Bool.toNat_true,
    Bool.toNat_false, Nat.mul_zero, Nat.add_zero]
  simp only [takeSymbols?, symbol, Option.bind_eq_bind, Option.bind_some, Nat.lt_irrefl, if_false,
    if_true, pure]

/-- Deflated contents are read to their end. Every round of reading takes a byte at least. -/
theorem takeBlocks?_deflate (contents : Bytes) {fuel : Nat}
    (enough : (deflate contents).length ≤ fuel + 1) (back : Bytes) :
    takeBlocks? (fuel + 1) (bitsOf (deflate contents)) back = some (back.reverse ++ contents) := by
  induction contents using deflate.induct generalizing fuel back with
  | case1 => rw [deflate, if_pos rfl, takeBlocks?_end, List.append_nil]
  | case2 contents some_content short =>
    have read := takeBlocks?_storedBlock true short fuel [] back
    rw [List.append_nil, if_pos rfl] at read
    rw [deflate, if_neg some_content, if_pos short, read]
  | case3 contents some_content long ih =>
    have first : (contents.take 0xFFFF).length ≤ 0xFFFF := List.length_take_le _ _
    rw [deflate, if_neg some_content, if_neg long] at enough ⊢
    rw [List.length_append, length_storedBlock] at enough
    obtain ⟨fuel, rfl⟩ : ∃ less, fuel = less + 1 := Nat.exists_eq_succ_of_ne_zero (by omega)
    rw [takeBlocks?_storedBlock false first, if_neg Bool.false_ne_true, ih (by omega)]
    simp

/-- **Deflated contents come back.** -/
theorem inflate?_deflate (contents : Bytes) : inflate? (deflate contents) = some contents := by
  have enough : (deflate contents).length ≤ (bitsOf (deflate contents)).length + 1 := by
    rw [length_bitsOf]
    omega
  exact takeBlocks?_deflate contents enough []

end DottedKeys.Archive
