import DottedKeys.Proofs.Properties.Lexeme
import DottedKeys.Proofs.Properties.NaturalLine

/-!
# No dangling escapes

A backslash at the very end of a raw text stands for nothing. What it stands for is of no account for a
raw text that ends outside an escape (`exists_unescapeOr_ne_iff`), and such are all that are decoded: a
logical line ends outside an escape, so does the part in front of its delimiter
(`isOpenAfter_cutKey_fst`), and so does the part behind it when it is trimmed (`isOpenAfter_trimValue`).
`closed_of_mem_logicalLines` puts this together.
-/

namespace DottedKeys.Properties

/-! ## What a lone backslash stands for -/

/-- The text that a raw text stands for, where `lone` is what comes of a backslash at the very end. -/
def unescapeOr (lone : Except Malformed Text) : Text → Except Malformed Text
  | [] => .ok []
  | [c] => if isBackslash c then lone else .ok [c]
  | c :: d :: rest =>
    if isBackslash c then
      if d = 'u' then
        match rest with
        | d₁ :: d₂ :: d₃ :: d₄ :: rest =>
          match ofDigits? d₁ d₂ d₃ d₄ with
          | some named => (unescapeOr lone rest).map (named :: ·)
          | none => .error ⟨[d₁, d₂, d₃, d₄]⟩
        | digits => .error ⟨digits⟩
      else (unescapeOr lone rest).map (control d :: ·)
    else (unescapeOr lone (d :: rest)).map (c :: ·)

section Lone

variable {lone : Except Malformed Text}

theorem Stands.unescapeOr {s : Text} {l : Lexeme} (h : Stands s l) (rest : Text) :
    unescapeOr lone (s ++ rest) = (unescapeOr lone rest).map (l.point :: ·) := by
  have backslash : isBackslash '\\' = true := by decide
  rw [unescapeOr.eq_def]
  cases h with
  | itself solid => cases rest <;> simp [Properties.unescapeOr, solid, Except.map]
  | escape other => simp [backslash, other]
  | number found => simp [backslash, found]

theorem unescapeOr_malformed {after : Text} (malformed : ¬ StartsWithDigits after) :
    unescapeOr lone ('\\' :: 'u' :: after) = unescape ('\\' :: 'u' :: after) := by
  have backslash : isBackslash '\\' = true := by decide
  obtain _ | ⟨d₁, _ | ⟨d₂, _ | ⟨d₃, _ | ⟨d₄, rest⟩⟩⟩⟩ := after
  · rfl
  · rfl
  · rfl
  · rfl
  · cases found : ofDigits? d₁ d₂ d₃ d₄ with
    | none => simp [unescapeOr, unescape, backslash, found]
    | some named =>
      exact absurd (startsWithDigits_iff.2 ⟨named, d₁, d₂, d₃, d₄, rest, found, rfl⟩) malformed

/-- Decoding takes it that nothing comes of a backslash at the very end. -/
theorem unescapeOr_nothing (raw : Text) : unescapeOr (.ok []) raw = unescape raw := by
  induction raw using byPieces with
  | nil => rfl
  | piece stands rest ih => rw [stands.unescapeOr, stands.unescape, ih]
  | lone => rfl
  | malformed after short => exact unescapeOr_malformed short

theorem map_cons_inj {first second : Except Malformed Text} (c : CodePoint) :
    first.map (c :: ·) = second.map (c :: ·) ↔ first = second := by
  cases first <;> cases second <;> simp [Except.map]

/-- What comes of a backslash at the very end matters to those raw texts that end inside an escape, and
among them to those that can be decoded up to there. -/
theorem exists_unescapeOr_ne_iff (raw : Text) :
    (∃ lone, unescapeOr lone raw ≠ unescape raw) ↔
      isOpenAfter false raw = true ∧ ¬ HoldsMalformed raw := by
  induction raw using byPieces with
  | nil => simp [unescapeOr, unescape, isOpenAfter]
  | @piece s l stands rest ih =>
    simp only [stands.unescapeOr, stands.unescape, ne_eq, map_cons_inj]
    rw [isOpenAfter_append, stands.closed, stands.holdsMalformed_iff]
    exact ih
  | lone =>
    have opens : isOpenAfter false ['\\'] = true := by decide
    have differs : unescapeOr (.error ⟨[]⟩) ['\\'] ≠ unescape ['\\'] := by decide
    exact ⟨fun _ => ⟨opens, not_holdsMalformed_lone⟩, fun _ => ⟨_, differs⟩⟩
  | malformed after short =>
    have holds : HoldsMalformed ('\\' :: 'u' :: after) := holdsMalformed_escape.2 (.inl ⟨rfl, short⟩)
    simp [unescapeOr_malformed short, holds]

/-- Of a raw text that ends outside an escape the same is decoded whatever comes of a backslash at the
very end. -/
theorem unescapeOr_eq {raw : Text} (closed : isOpenAfter false raw = false) :
    unescapeOr lone raw = unescape raw := by
  by_contra differs
  obtain ⟨opened, -⟩ := (exists_unescapeOr_ne_iff raw).1 ⟨lone, differs⟩
  rw [closed] at opened
  contradiction

end Lone

/-! ## Keys and values -/

/-- A key is cut off where no escape is open, or it is the whole line. -/
theorem isOpenAfter_cutKey_fst {escaped : Bool} {t : Text} (closed : isOpenAfter escaped t = false) :
    isOpenAfter escaped (cutKey escaped t).1 = false := by
  induction t generalizing escaped with
  | nil => exact closed
  | cons c rest ih =>
    rw [cutKey]
    split
    next ends =>
      rw [Bool.and_eq_true, Bool.not_eq_true'] at ends
      exact ends.1
    next => exact ih closed

/-- What is passed over between a key and its value holds no escape. -/
theorem isOpenAfter_skipDelimiter {t : Text} (closed : isOpenAfter false t = false) :
    isOpenAfter false (skipDelimiter t) = false := by
  rw [skipDelimiter_eq]
  exact isOpenAfter_skipBlanks (isOpenAfter_skipSeparator (isOpenAfter_skipBlanks closed))

/-- Only blanks outside an escape are trimmed, so none is open behind what is left. -/
theorem isOpenAfter_trimValue {t : Text} (closed : isOpenAfter false t = false) :
    isOpenAfter false (trimValue t) = false := by
  induction t using List.reverseRecOn with
  | nil => rfl
  | append_singleton t c ih =>
    rw [trimValue_concat]
    split
    next trimmed =>
      rw [Bool.and_eq_true, Bool.not_eq_true'] at trimmed
      exact ih trimmed.2
    next => exact closed

/-! ## Logical lines -/

theorem contents_isPrefix (natural : Text) : contents natural <+: skipBlanks natural := by
  rw [contents]
  split
  · exact List.dropLast_prefix _
  · exact List.prefix_refl _

/-- A logical line holds no line break. -/
theorem unbroken_of_mem_logicalLines {t line : Text} (member : line ∈ logicalLines t) :
    ∀ c ∈ line, isLineBreak c = false := by
  refine holds_of_mem_joinLines (∀ c ∈ ·, isLineBreak c = false) (by simp) ?_ member
  intro front unbroken next natural
  refine List.forall_mem_append.2 ⟨unbroken, fun c inside => ?_⟩
  have within : c ∈ next :=
    (List.dropWhile_suffix isBlank).subset ((contents_isPrefix next).subset inside)
  exact unbroken_of_mem_naturalLines natural c within

/-- A logical line does not start with a blank: neither does any of its parts. -/
theorem solid_of_mem_logicalLines {t line : Text} (member : line ∈ logicalLines t) :
    ∀ c ∈ line.head?, isBlank c = false := by
  refine holds_of_mem_joinLines (∀ c ∈ ·.head?, isBlank c = false) (by simp) ?_ member
  intro front solid next _
  cases front with
  | cons d front => exact solid
  | nil =>
    intro c first
    obtain ⟨rest, shape⟩ := contents_isPrefix next
    have kept : (skipBlanks next).head? = some c := by
      rw [List.nil_append, Option.mem_def] at first
      rw [← shape, List.head?_append, first, Option.some_or]
    have start := List.head?_dropWhile_not isBlank next
    rw [← skipBlanks, kept] at start
    exact start

/-- **No dangling escape.** A logical line holds no line break, does not start with a blank and ends in
an even number of backslashes. What is decoded of it, the key and the trimmed value, ends outside an
escape, so that nothing depends on what comes of a backslash at the very end. -/
theorem closed_of_mem_logicalLines {t line : Text} (member : line ∈ logicalLines t) :
    (∀ c ∈ line, isLineBreak c = false) ∧ (∀ c ∈ line.head?, isBlank c = false) ∧
      trailingBackslashes line % 2 = 0 ∧
      ∀ raw ∈ [(splitEntry line).1, trimValue (splitEntry line).2],
        isOpenAfter false raw = false ∧ ∀ lone, unescapeOr lone raw = unescape raw := by
  have closed := isOpenAfter_of_mem_logicalLines member
  have key : isOpenAfter false (splitEntry line).1 = false := isOpenAfter_cutKey_fst closed
  have value : isOpenAfter false (trimValue (splitEntry line).2) = false :=
    isOpenAfter_trimValue (isOpenAfter_skipDelimiter (isOpenAfter_cutKey closed))
  have ended : ∀ raw ∈ [(splitEntry line).1, trimValue (splitEntry line).2],
      isOpenAfter false raw = false := by
    simpa using ⟨key, value⟩
  refine ⟨unbroken_of_mem_logicalLines member, solid_of_mem_logicalLines member,
    even_of_mem_logicalLines member, fun raw decoded => ?_⟩
  exact ⟨ended raw decoded, fun lone => unescapeOr_eq (ended raw decoded)⟩

/-- An entry whose value ends in an escaped blank, with a backslash to continue it and another that
continues nothing. -/
def unendedText : Text :=
  "k\\ =\\\\\\ \\\n\\"

theorem closed_of_mem_logicalLines_unendedText :
    ("k\\ =\\\\\\ " : Text) ∈ logicalLines unendedText ∧
      ∀ lone, unescapeOr lone "k\\ " = .ok "k " ∧ unescapeOr lone "\\\\\\ " = .ok "\\ " := by
  have member : ("k\\ =\\\\\\ " : Text) ∈ logicalLines unendedText := by decide +kernel
  obtain ⟨-, -, -, decoded⟩ := closed_of_mem_logicalLines member
  have split : [(splitEntry ("k\\ =\\\\\\ " : Text)).1, trimValue (splitEntry "k\\ =\\\\\\ ").2] =
      [("k\\ " : Text), ("\\\\\\ " : Text)] := by decide +kernel
  rw [split] at decoded
  refine ⟨member, fun lone => ⟨?_, ?_⟩⟩
  · exact ((decoded _ (by simp)).2 lone).trans (by decide +kernel)
  · exact ((decoded _ (by simp)).2 lone).trans (by decide +kernel)

end DottedKeys.Properties
