import DottedKeys.Disk.Name
import DottedKeys.Disk.Path

/-!
# The code points of a path

Reading a path from text, joining paths and writing one out move code points about and add none but
slashes and dots: `mem_of_mem_names_parse` and `mem_text` say where each comes from. They also lose
none but these (`exists_name_of_mem`, `mem_text_of_mem_name`). So a path is no name only if a text it
was made of is none (`FileName.flaw?_ne_none_iff`). Several texts may be one name on the disk, but two
dots are the name of one text only (`FileName.ofText_eq_dots_iff`).
-/

namespace DottedKeys

variable {c mark : CodePoint}

namespace Text

theorem mem_intercalate {pieces : List Text} (member : c ∈ [mark].intercalate pieces) :
    c = mark ∨ ∃ piece ∈ pieces, c ∈ piece := by
  induction pieces with
  | nil => contradiction
  | cons piece pieces ih =>
    cases pieces with
    | nil => exact .inr ⟨piece, List.mem_cons_self, by simpa [List.intercalate] using member⟩
    | cons next pieces =>
      rw [List.intercalate_cons_cons, List.mem_append, List.mem_append] at member
      rcases member with (inside | same) | later
      · exact .inr ⟨piece, List.mem_cons_self, inside⟩
      · exact .inl (List.mem_singleton.1 same)
      · obtain same | ⟨other, among, inside⟩ := ih later
        · exact .inl same
        · exact .inr ⟨other, List.mem_cons_of_mem piece among, inside⟩

theorem mem_intercalate_of_mem {pieces : List Text} {piece : Text} (among : piece ∈ pieces)
    (inside : c ∈ piece) : c ∈ [mark].intercalate pieces := by
  induction pieces with
  | nil => contradiction
  | cons first pieces ih =>
    cases pieces with
    | nil =>
      obtain rfl := List.mem_singleton.1 among
      simpa [List.intercalate] using inside
    | cons next pieces =>
      rw [List.intercalate_cons_cons, List.mem_append, List.mem_append]
      rcases List.mem_cons.1 among with rfl | among
      · exact .inl (.inl inside)
      · exact .inr (ih among)

theorem mem_of_mem_splitOn {t piece : Text} (among : piece ∈ splitOn mark t) (inside : c ∈ piece) :
    c ∈ t := by
  rw [← intercalate_splitOn mark t]
  exact mem_intercalate_of_mem among inside

theorem exists_piece_of_mem {t : Text} (member : c ∈ t) (other : c ≠ mark) :
    ∃ piece ∈ splitOn mark t, c ∈ piece := by
  rw [← intercalate_splitOn mark t] at member
  exact (mem_intercalate member).resolve_left other

end Text

namespace Path

/-- A code point that every path may add or lose: a slash, or a dot. -/
def IsFiller (c : CodePoint) : Prop :=
  c = slash ∨ c = '.'

instance (c : CodePoint) : Decidable (IsFiller c) :=
  inferInstanceAs (Decidable (_ ∨ _))

theorem mem_of_mem_names_parse {t name : Text} (among : name ∈ (parse t).names) (inside : c ∈ name) :
    c ∈ t :=
  Text.mem_of_mem_splitOn (List.mem_filter.1 among).1 inside

theorem exists_name_of_mem {t : Text} (member : c ∈ t) (solid : ¬ IsFiller c) :
    ∃ name ∈ (parse t).names, c ∈ name := by
  obtain ⟨piece, among, inside⟩ := Text.exists_piece_of_mem member fun same => solid (.inl same)
  have busy : isIdle piece = false := by
    have some_piece : piece ≠ [] := List.ne_nil_of_mem inside
    have no_dot : piece ≠ "." := by
      rintro rfl
      exact solid (.inr (List.mem_singleton.1 inside))
    simp [isIdle, some_piece, no_dot]
  exact ⟨piece, List.mem_filter.2 ⟨among, by simp [busy]⟩, inside⟩

theorem mem_anchor_text {anchor : Anchor} (member : c ∈ anchor.text) : IsFiller c := by
  cases anchor with
  | here => contradiction
  | root => exact .inl (List.mem_singleton.1 member)
  | secondRoot =>
    rcases List.mem_cons.1 member with same | member
    · exact .inl same
    · exact .inl (List.mem_singleton.1 member)

/-- The text of a path is made of its names. -/
theorem mem_text {p : Path} (member : c ∈ p.text) : IsFiller c ∨ ∃ name ∈ p.names, c ∈ name := by
  rw [text] at member
  split at member
  next => exact .inl (.inr (List.mem_singleton.1 member))
  next =>
    rcases List.mem_append.1 member with anchor | names
    · exact .inl (mem_anchor_text anchor)
    · exact (Text.mem_intercalate names).imp_left .inl

theorem mem_text_of_mem_name {p : Path} {name : Text} (among : name ∈ p.names) (inside : c ∈ name) :
    c ∈ p.text := by
  have some_name : p.names.isEmpty = false := by simpa using List.ne_nil_of_mem among
  rw [text, some_name, Bool.and_false, if_neg Bool.false_ne_true]
  exact List.mem_append_right _ (Text.mem_intercalate_of_mem among inside)

theorem mem_names_join {p q : Path} {name : Text} (among : name ∈ (p.join q).names) :
    name ∈ p.names ∨ name ∈ q.names := by
  rw [join] at among
  split at among
  next => exact List.mem_append.1 among
  next => exact .inr among

theorem mem_names_join_right {p q : Path} {name : Text} (among : name ∈ q.names) :
    name ∈ (p.join q).names := by
  rw [join]
  split
  next => exact List.mem_append_right _ among
  next => exact among

/-- The names on the path of several texts are those of the texts. -/
theorem mem_names_ofTexts {parts : List Text} {name : Text} (among : name ∈ (ofTexts parts).names) :
    ∃ part ∈ parts, name ∈ (parse part).names := by
  suffices main : ∀ p : Path, name ∈ (parts.foldl (fun p part => p.join (parse part)) p).names →
      name ∈ p.names ∨ ∃ part ∈ parts, name ∈ (parse part).names by
    exact (main ⟨.here, []⟩ among).resolve_left List.not_mem_nil
  clear among
  induction parts with
  | nil => exact fun p among => .inl among
  | cons part parts ih =>
    intro p among
    rcases ih (p.join (parse part)) among with first | ⟨other, later, inside⟩
    · rcases mem_names_join first with before | here
      · exact .inl before
      · exact .inr ⟨part, List.mem_cons_self, here⟩
    · exact .inr ⟨other, List.mem_cons_of_mem part later, inside⟩

end Path

namespace FileName

/-- A code point that no file name holds: it has no bytes, or is the null. -/
def Spoils (c : CodePoint) : Prop :=
  (!c.isSurrogate || (byte? c).isSome) = false ∨ c = .null

instance (c : CodePoint) : Decidable (Spoils c) :=
  inferInstanceAs (Decidable (_ ∨ _))

theorem flaw?_ne_none_iff {t : Text} : flaw? t ≠ none ↔ ∃ c ∈ t, Spoils c := by
  rw [flaw?, ne_eq, Text.flaw?_eq_none_iff]
  constructor
  · intro flawed
    by_cases spoilt : ∃ c ∈ t, Spoils c
    · exact spoilt
    refine absurd ⟨fun c member => ?_, fun null => spoilt ⟨_, null, .inr rfl⟩⟩ flawed
    rw [← Bool.not_eq_false]
    exact fun bare => spoilt ⟨c, member, .inl bare⟩
  · rintro ⟨c, member, bare | rfl⟩ ⟨each, clear⟩
    · rw [each c member] at bare
      contradiction
    · exact clear member

/-- A code point that every name may hold. -/
def IsPlain (c : CodePoint) : Prop :=
  c.isSurrogate = false ∧ c ≠ .null

instance (c : CodePoint) : Decidable (IsPlain c) :=
  inferInstanceAs (Decidable (_ ∧ _))

theorem not_spoils_of_isPlain (plain : IsPlain c) : ¬ Spoils c := by
  rintro (bare | null)
  · rw [plain.1] at bare
    contradiction
  · exact plain.2 null

theorem isPlain_of_isFiller (filler : Path.IsFiller c) : IsPlain c := by
  rcases filler with rfl | rfl <;> decide

/-! ## Bytes -/

/-- The bytes that a code point stands for in a name. -/
def bytesOf (c : CodePoint) : Bytes :=
  ((byte? c).map fun b => [b]).getD (Utf8.encodePoint c)

theorem ofText_cons (c : CodePoint) (t : Text) : ofText (c :: t) = bytesOf c ++ ofText t := by
  rw [ofText, ofText, List.flatMap_cons, bytesOf]

/-- Bytes of ASCII stand for code points of ASCII, but for the question mark. -/
theorem eq_of_bytesOf_append {c : CodePoint} {b : UInt8} {rest more : Bytes} (ascii : b.toNat < 0x80)
    (question : b ≠ 0x3F) (first : bytesOf c ++ rest = b :: more) : c.val = b.toNat ∧ rest = more := by
  have lead {n : Nat} {tail : Bytes} (high : 0x80 ≤ n) (byte : n < 0x100)
      (same : (UInt8.ofNat n :: tail) ++ rest = b :: more) : False := by
    have value := congrArg UInt8.toNat (List.cons.inj same).1
    rw [UInt8.toNat_ofNat_of_lt' byte] at value
    omega
  have bound := c.isLt
  rw [bytesOf, byte?] at first
  split at first
  next surrogate => exact (lead (by omega) (by omega) first).elim
  next =>
    rw [Option.map_none, Option.getD_none, Utf8.encodePoint] at first
    split at first
    next => exact absurd (List.cons.inj first).1.symm question
    next =>
      split at first
      next small =>
        obtain ⟨same, rest⟩ := List.cons.inj first
        rw [← same, UInt8.toNat_ofNat_of_lt' (Nat.lt_trans small (by decide))]
        exact ⟨rfl, rest⟩
      next =>
        split at first
        next => exact (lead (by omega) (by omega) first).elim
        next =>
          split at first
          next => exact (lead (by omega) (by omega) first).elim
          next => exact (lead (by omega) (by omega) first).elim

theorem bytesOf_ne_nil (c : CodePoint) : bytesOf c ≠ [] := by
  rw [bytesOf, Utf8.encodePoint]
  cases byte? c with
  | some b => simp
  | none =>
    rw [Option.map_none, Option.getD_none]
    iterate 4
      split
      next => simp
    simp

/-- Two dots are the name of no other text. -/
theorem ofText_eq_dots_iff {t : Text} : ofText t = ofText ".." ↔ t = ".." := by
  refine ⟨fun same => ?_, fun same => same ▸ rfl⟩
  have dots : ofText ".." = [0x2E, 0x2E] := by decide +kernel
  rw [dots] at same
  obtain _ | ⟨c, _ | ⟨d, t⟩⟩ := t
  · contradiction
  · rw [ofText_cons] at same
    obtain ⟨-, left⟩ := eq_of_bytesOf_append (by decide) (by decide) same
    contradiction
  · rw [ofText_cons] at same
    obtain ⟨first, left⟩ := eq_of_bytesOf_append (by decide) (by decide) same
    rw [ofText_cons] at left
    obtain ⟨second, none_left⟩ := eq_of_bytesOf_append (by decide) (by decide) left
    cases t with
    | nil =>
      have dot : ∀ e : CodePoint, e.val = 0x2E → e = '.' := fun e value => by
        cases e
        subst value
        rfl
      rw [dot c first, dot d second]
      rfl
    | cons e t =>
      rw [ofText_cons] at none_left
      exact absurd (List.append_eq_nil_iff.1 none_left).1 (bytesOf_ne_nil e)

end FileName

end DottedKeys
