/-!
# Text as code points

Keys, paths and generated source are sequences of code points. A lone surrogate is a code point
here: an escape in a properties file may name one, and it is kept apart from every character. The
cutting and joining that the other modules share stands here too, with the laws that tie the two.
-/

namespace DottedKeys

/-- A code point, surrogates included. -/
structure CodePoint where
  val : Nat
  isLt : val < 0x110000
deriving DecidableEq

namespace CodePoint

/-- The code point of a character. -/
def ofChar (c : Char) : CodePoint :=
  ⟨c.toNat, by
    have valid := c.valid
    rcases valid with low | ⟨_, high⟩
    · exact Nat.lt_trans low (by decide)
    · exact high⟩

instance : Coe Char CodePoint := ⟨ofChar⟩

/-- The code point of a number below `110000` (hexadecimal); larger numbers give none. -/
def ofNat? (n : Nat) : Option CodePoint :=
  if h : n < 0x110000 then some ⟨n, h⟩ else none

/-- Halves of surrogate pairs, which no character is. -/
def isSurrogate (c : CodePoint) : Bool :=
  0xD800 ≤ c.val && c.val < 0xE000

/-- The character at a code point, if it has one. -/
def toChar? (c : CodePoint) : Option Char :=
  if h : c.val.isValidChar then some (Char.ofNatAux c.val h) else none

end CodePoint

/-- A sequence of code points. -/
abbrev Text := List CodePoint

namespace Text

/-- The code points of a string. -/
def ofString (s : String) : Text :=
  s.toList.map CodePoint.ofChar

instance : Coe String Text := ⟨ofString⟩

/-- The text as a string, with the replacement character for each surrogate. -/
def toString (t : Text) : String :=
  String.ofList (t.map fun c => c.toChar?.getD '\ufffd')

/-- A number in decimal digits. -/
def ofNat (n : Nat) : Text :=
  ofString n.repr

/-- Put a code point in front of the first of some pieces. -/
def consFirst (c : CodePoint) : List Text → List Text
  | [] => [[c]]
  | piece :: pieces => (c :: piece) :: pieces

/-- The pieces between the occurrences of `mark`; there is always one more piece than marks. -/
def splitOn (mark : CodePoint) : Text → List Text
  | [] => [[]]
  | c :: rest => if c = mark then [] :: splitOn mark rest else consFirst c (splitOn mark rest)

/-- The texts before and after the last occurrence of `mark`. -/
def splitLast? (mark : CodePoint) : Text → Option (Text × Text)
  | [] => none
  | c :: rest =>
    match splitLast? mark rest with
    | some (before, after) => some (c :: before, after)
    | none => if c = mark then some ([], rest) else none

theorem consFirst_ne_nil (c : CodePoint) (pieces : List Text) : consFirst c pieces ≠ [] := by
  cases pieces <;> simp [consFirst]

theorem consFirst_append (c : CodePoint) {pieces : List Text} (some_piece : pieces ≠ [])
    (more : List Text) : consFirst c (pieces ++ more) = consFirst c pieces ++ more := by
  cases pieces with
  | nil => exact absurd rfl some_piece
  | cons piece pieces => rfl

theorem mem_consFirst {c : CodePoint} {pieces : List Text} {piece : Text}
    (member : piece ∈ consFirst c pieces) :
    piece = [c] ∨ piece ∈ pieces ∨ ∃ rest ∈ pieces, piece = c :: rest := by
  cases pieces with
  | nil => exact .inl (List.mem_singleton.1 member)
  | cons first pieces =>
    rcases List.mem_cons.1 member with rfl | member
    · exact .inr (.inr ⟨first, List.mem_cons_self, rfl⟩)
    · exact .inr (.inl (List.mem_cons_of_mem first member))

theorem splitOn_ne_nil (mark : CodePoint) (t : Text) : splitOn mark t ≠ [] := by
  cases t with
  | nil => simp [splitOn]
  | cons c rest =>
    rw [splitOn]
    split
    · simp
    · exact consFirst_ne_nil c _

/-- The pieces of a split, joined again, give the text. -/
theorem intercalate_splitOn (mark : CodePoint) (t : Text) :
    [mark].intercalate (splitOn mark t) = t := by
  induction t with
  | nil => rfl
  | cons c rest ih =>
    have some_piece := splitOn_ne_nil mark rest
    rw [splitOn]
    cases pieces : splitOn mark rest with
    | nil => exact absurd pieces some_piece
    | cons piece more =>
      rw [pieces] at ih
      split
      next same => simp [List.intercalate, ← ih, same]
      next => cases more <;> simp_all [consFirst, List.intercalate]

/-- A split at the last mark loses nothing but that mark. -/
theorem eq_of_splitLast? {mark : CodePoint} {t before after : Text}
    (h : splitLast? mark t = some (before, after)) : t = before ++ mark :: after := by
  induction t generalizing before after with
  | nil => simp [splitLast?] at h
  | cons c rest ih =>
    rw [splitLast?] at h
    split at h
    next pre post found =>
      obtain ⟨rfl, rfl⟩ := Prod.mk.inj (Option.some.inj h)
      simp [ih found]
    next =>
      split at h
      next same =>
        obtain ⟨rfl, rfl⟩ := Prod.mk.inj (Option.some.inj h)
        simp [same]
      next => contradiction

/-- There is no last mark exactly when there is no mark. -/
theorem splitLast?_eq_none_iff {mark : CodePoint} {t : Text} :
    splitLast? mark t = none ↔ mark ∉ t := by
  induction t with
  | nil => simp [splitLast?]
  | cons c rest ih =>
    rw [splitLast?]
    cases last : splitLast? mark rest with
    | some parts => simp_all
    | none =>
      have absent := ih.1 last
      by_cases same : c = mark
      · simp [same]
      · simp [same, absent, Ne.symm same]

/-- No mark stands after the last one. -/
theorem not_mem_of_splitLast? {mark : CodePoint} {t before after : Text}
    (h : splitLast? mark t = some (before, after)) : mark ∉ after := by
  induction t generalizing before after with
  | nil => simp [splitLast?] at h
  | cons c rest ih =>
    rw [splitLast?] at h
    split at h
    next pre post found =>
      obtain ⟨rfl, rfl⟩ := Prod.mk.inj (Option.some.inj h)
      exact ih found
    next missing =>
      split at h
      next =>
        obtain ⟨rfl, rfl⟩ := Prod.mk.inj (Option.some.inj h)
        exact splitLast?_eq_none_iff.1 missing
      next => contradiction

end Text

end DottedKeys
