import DottedKeys.Proofs.Properties.Scan

/-!
# Spellings

A key or a value is written down code point by code point, and most code points have several
spellings: themselves, a backslash in front, a letter that names a control, or a number in four
hexadecimal digits. Whatever is chosen, `Spelled.unescape` gives the text back, and the other passes
over a line find no delimiter, no blank to trim and no open escape in a spelling.
-/

namespace DottedKeys.Properties

/-- What ends a natural line. -/
def isLineBreak (c : CodePoint) : Bool :=
  c = '\r' || c = '\n'

/-- What has a meaning of its own wherever no backslash stands in front. -/
def marks : Text :=
  ['\\', ' ', '\t', '\x0c', '\r', '\n', '=', ':', '#', '!']

/-- What does not stand for itself behind a backslash. -/
def claimed : Text :=
  ['t', 'n', 'r', 'f', 'u', '\r', '\n']

/-- The letters that name a control behind a backslash, with what they name. -/
def controls : List (CodePoint × CodePoint) :=
  [('t', '\t'), ('n', '\n'), ('r', '\r'), ('f', '\x0c')]

/-- The hexadecimal digits in both cases, with their values. -/
def hexDigits : List (CodePoint × Nat) :=
  (Text.ofString "0123456789abcdef").zipIdx ++ (Text.ofString "0123456789ABCDEF").zipIdx

/-- The spellings of one code point. -/
inductive Spelling : CodePoint → Text → Prop where
  | itself {c : CodePoint} (plain : c ∉ marks) : Spelling c [c]
  | escaped {c : CodePoint} (free : c ∉ claimed) : Spelling c ['\\', c]
  | control {letter c : CodePoint} (named : (letter, c) ∈ controls) : Spelling c ['\\', letter]
  | number {c d₁ d₂ d₃ d₄ : CodePoint} {v₁ v₂ v₃ v₄ : Nat}
      (first : (d₁, v₁) ∈ hexDigits) (second : (d₂, v₂) ∈ hexDigits)
      (third : (d₃, v₃) ∈ hexDigits) (fourth : (d₄, v₄) ∈ hexDigits)
      (value : c.val = ((v₁ * 16 + v₂) * 16 + v₃) * 16 + v₄) :
      Spelling c ['\\', 'u', d₁, d₂, d₃, d₄]

/-- A text with a spelling of it, each code point spelled by itself. -/
inductive Spelled : (text raw : Text) → Prop where
  | nil : Spelled [] []
  | cons {c : CodePoint} {s rest raw : Text} (first : Spelling c s) (more : Spelled rest raw) :
      Spelled (c :: rest) (s ++ raw)

/-! ## What is not a mark -/

/-- What is no mark belongs to none of the classes that the passes look for. -/
structure Plain (c : CodePoint) : Prop where
  backslash : isBackslash c = false
  blank : isBlank c = false
  separator : isSeparator c = false
  comment : isCommentMark c = false
  lineBreak : isLineBreak c = false

theorem plain_of_not_mem_marks {c : CodePoint} (h : c ∉ marks) : Plain c := by
  simp only [marks, List.mem_cons, List.not_mem_nil, or_false, not_or] at h
  obtain ⟨backslash, space, tab, feed, return_, newline, equals, colon, hash, bang⟩ := h
  constructor
  · simpa [isBackslash] using backslash
  · simp [isBlank, space, tab, feed]
  · simp [isSeparator, equals, colon]
  · simp [isCommentMark, hash, bang]
  · simp [isLineBreak, return_, newline]

theorem Plain.delimiter {c : CodePoint} (h : Plain c) : isDelimiter c = false := by
  simp [isDelimiter, h.separator, h.blank]

theorem isOpenAfter_plain {t : Text} (plain : ∀ c ∈ t, Plain c) : isOpenAfter false t = false := by
  induction t with
  | nil => rfl
  | cons c rest ih =>
    rw [isOpenAfter, (plain c List.mem_cons_self).backslash]
    exact ih fun d inside => plain d (List.mem_cons_of_mem _ inside)

theorem cutKey_plain {t : Text} (plain : ∀ c ∈ t, Plain c) (rest : Text) :
    cutKey false (t ++ rest) = (t ++ (cutKey false rest).1, (cutKey false rest).2) := by
  induction t with
  | nil => rfl
  | cons c more ih =>
    have first := plain c List.mem_cons_self
    have later := ih fun d inside => plain d (List.mem_cons_of_mem _ inside)
    simp [cutKey, first.delimiter, first.backslash, later]

/-! ## Tokens

For all passes but the last a spelling is either one code point that is no mark, or a backslash and
what it protects, followed by no marks. -/

/-- What a spelling looks like to a pass that does not decode it. -/
inductive Token : Text → Prop where
  | single {c : CodePoint} (plain : Plain c) : Token [c]
  | escape {d : CodePoint} {tail : Text} (kept : isLineBreak d = false)
      (plain : ∀ c ∈ tail, Plain c) : Token ('\\' :: d :: tail)

theorem plain_of_mem_hexDigits {p : CodePoint × Nat} (h : p ∈ hexDigits) : Plain p.1 := by
  have none_marked : ∀ p ∈ hexDigits, p.1 ∉ marks := by decide +kernel
  exact plain_of_not_mem_marks (none_marked p h)

theorem Spelling.token {c : CodePoint} {s : Text} (h : Spelling c s) : Token s := by
  cases h with
  | itself plain => exact .single (plain_of_not_mem_marks plain)
  | escaped free =>
    refine .escape ?_ (by simp)
    simp only [claimed, List.mem_cons, List.not_mem_nil, or_false, not_or] at free
    simp [isLineBreak, free]
  | control named =>
    have none_breaks : ∀ p ∈ controls, isLineBreak p.1 = false := by decide
    exact .escape (none_breaks _ named) (by simp)
  | number first second third fourth value =>
    refine .escape (by decide) ?_
    simp only [List.mem_cons, List.not_mem_nil, or_false]
    rintro d (rfl | rfl | rfl | rfl)
    · exact plain_of_mem_hexDigits first
    · exact plain_of_mem_hexDigits second
    · exact plain_of_mem_hexDigits third
    · exact plain_of_mem_hexDigits fourth

namespace Token

variable {s : Text}

/-- A token closes the escape that it opens. -/
theorem closed (h : Token s) : isOpenAfter false s = false := by
  cases h with
  | single plain => simp [isOpenAfter, plain.backslash]
  | escape kept plain =>
    have backslash : isBackslash '\\' = true := by decide
    simpa [isOpenAfter, backslash] using isOpenAfter_plain plain

/-- No key ends inside a token. -/
theorem cutKey (h : Token s) (rest : Text) :
    cutKey false (s ++ rest) = (s ++ (cutKey false rest).1, (cutKey false rest).2) := by
  cases h with
  | single plain =>
    exact cutKey_plain (by simpa using plain) rest
  | escape kept plain =>
    have later := cutKey_plain plain rest
    have opens : isDelimiter '\\' = false := by decide
    have backslash : isBackslash '\\' = true := by decide
    simp [Properties.cutKey, opens, backslash, later]

/-- Nothing of a token is trimmed. -/
theorem trimValue (h : Token s) : trimValue s = s := by
  cases h with
  | @single c plain =>
    have last := trimValue_concat [] c
    simpa [plain.blank] using last
  | @escape d tail kept plain =>
    rcases List.eq_nil_or_concat tail with rfl | ⟨front, c, rfl⟩
    · have last := trimValue_concat ['\\'] d
      have opens : isOpenAfter false ['\\'] = true := by decide
      simpa [opens] using last
    · have last := trimValue_concat ('\\' :: d :: front) c
      have solid := (plain c (by simp)).blank
      simpa [solid] using last

/-- A line does not end inside a token. -/
theorem not_isLineBreak (h : Token s) : ∀ c ∈ s, isLineBreak c = false := by
  cases h with
  | single plain => simpa using plain.lineBreak
  | escape kept plain =>
    have opens : isLineBreak '\\' = false := by decide
    simp only [List.mem_cons, forall_eq_or_imp]
    exact ⟨opens, kept, fun c inside => (plain c inside).lineBreak⟩

end Token

/-! ## Spelled texts -/

theorem unescape_cons {c : CodePoint} (h : isBackslash c = false) (rest : Text) :
    unescape (c :: rest) = (unescape rest).map (c :: ·) := by
  rw [unescape.eq_def]
  cases rest with
  | nil => simp [unescape, h, Except.map]
  | cons d rest => simp [h]

theorem unescape_escape {d : CodePoint} (h : d ≠ 'u') (rest : Text) :
    unescape ('\\' :: d :: rest) = (unescape rest).map (control d :: ·) := by
  have backslash : isBackslash '\\' = true := by decide
  rw [unescape.eq_def]
  simp [backslash, h]

theorem unescape_number {c d₁ d₂ d₃ d₄ : CodePoint} (h : ofDigits? d₁ d₂ d₃ d₄ = some c)
    (rest : Text) :
    unescape ('\\' :: 'u' :: d₁ :: d₂ :: d₃ :: d₄ :: rest) = (unescape rest).map (c :: ·) := by
  have backslash : isBackslash '\\' = true := by decide
  rw [unescape]
  simp [backslash, h]

theorem hexValue?_of_mem {d : CodePoint} {v : Nat} (h : (d, v) ∈ hexDigits) :
    ∃ value, hexValue? d = some value ∧ value.val = v := by
  have table : ∀ p ∈ hexDigits, (hexValue? p.1).map Fin.val = some p.2 := by decide +kernel
  exact Option.map_eq_some_iff.1 (table _ h)

/-- Four digits name the code point of their value. -/
theorem ofDigits?_of_mem {c d₁ d₂ d₃ d₄ : CodePoint} {v₁ v₂ v₃ v₄ : Nat}
    (first : (d₁, v₁) ∈ hexDigits) (second : (d₂, v₂) ∈ hexDigits)
    (third : (d₃, v₃) ∈ hexDigits) (fourth : (d₄, v₄) ∈ hexDigits)
    (value : c.val = ((v₁ * 16 + v₂) * 16 + v₃) * 16 + v₄) :
    ofDigits? d₁ d₂ d₃ d₄ = some c := by
  obtain ⟨w₁, read₁, rfl⟩ := hexValue?_of_mem first
  obtain ⟨w₂, read₂, rfl⟩ := hexValue?_of_mem second
  obtain ⟨w₃, read₃, rfl⟩ := hexValue?_of_mem third
  obtain ⟨w₄, read₄, rfl⟩ := hexValue?_of_mem fourth
  have same : w₁.val * 4096 + w₂.val * 256 + w₃.val * 16 + w₄.val = c.val := by omega
  obtain ⟨n, lt⟩ := c
  subst same
  simp [ofDigits?, read₁, read₂, read₃, read₄]

/-- Decoding takes one spelling at a time. -/
theorem Spelling.unescape {c : CodePoint} {s : Text} (h : Spelling c s) (rest : Text) :
    unescape (s ++ rest) = (unescape rest).map (c :: ·) := by
  cases h with
  | itself plain => exact unescape_cons (plain_of_not_mem_marks plain).backslash rest
  | escaped free =>
    simp only [claimed, List.mem_cons, List.not_mem_nil, or_false, not_or] at free
    obtain ⟨t, n, r, f, u, -, -⟩ := free
    have itself : Properties.control c = c := by simp [Properties.control, t, n, r, f]
    rw [List.cons_append, List.cons_append, List.nil_append, unescape_escape u, itself]
  | @control letter c named =>
    have table : ∀ p ∈ controls, p.1 ≠ 'u' ∧ Properties.control p.1 = p.2 := by decide
    obtain ⟨other, names⟩ := table _ named
    rw [List.cons_append, List.cons_append, List.nil_append, unescape_escape other, names]
  | number first second third fourth value =>
    exact unescape_number (ofDigits?_of_mem first second third fourth value) rest

namespace Spelled

variable {text raw : Text}

/-- Decoding a spelled text gives the text. -/
theorem unescape (h : Spelled text raw) : unescape raw = .ok text := by
  induction h with
  | nil => rfl
  | cons first more ih => rw [first.unescape, ih]; rfl

/-- A spelled text ends outside an escape. -/
theorem closed (h : Spelled text raw) : isOpenAfter false raw = false := by
  induction h with
  | nil => rfl
  | cons first more ih => rw [isOpenAfter_append, first.token.closed, ih]

/-- No key ends inside a spelled text. -/
theorem cutKey (h : Spelled text raw) (rest : Text) :
    cutKey false (raw ++ rest) = (raw ++ (cutKey false rest).1, (cutKey false rest).2) := by
  induction h with
  | nil => rfl
  | cons first more ih => rw [List.append_assoc, first.token.cutKey, ih, List.append_assoc]

/-- Nothing of a spelled text is trimmed. -/
theorem trimValue (h : Spelled text raw) : trimValue raw = raw := by
  induction h with
  | nil => rfl
  | @cons c s rest raw first more ih =>
    rw [trimValue_append first.token.closed, ih]
    cases raw with
    | nil => simpa using first.token.trimValue
    | cons d raw => rfl

/-- A line does not end inside a spelled text. -/
theorem not_isLineBreak (h : Spelled text raw) : ∀ c ∈ raw, isLineBreak c = false := by
  induction h with
  | nil => simp
  | cons first more ih =>
    intro c inside
    rcases List.mem_append.1 inside with inside | inside
    · exact first.token.not_isLineBreak c inside
    · exact ih c inside

/-- What is not empty is spelled by something that starts with neither a blank nor a separator nor
a comment mark. -/
theorem eq_cons (h : Spelled text raw) (some_text : text ≠ []) :
    ∃ c more, raw = c :: more ∧ isBlank c = false ∧ isSeparator c = false ∧
      isCommentMark c = false := by
  cases h with
  | nil => exact absurd rfl some_text
  | cons first more =>
    cases first.token with
    | single plain => exact ⟨_, _, rfl, plain.blank, plain.separator, plain.comment⟩
    | escape kept plain => exact ⟨_, _, rfl, by decide, by decide, by decide⟩

theorem eq_nil (h : Spelled [] raw) : raw = [] := by
  cases h
  rfl

theorem append {more rawMore : Text} (h : Spelled text raw) (h' : Spelled more rawMore) :
    Spelled (text ++ more) (raw ++ rawMore) := by
  induction h with
  | nil => exact h'
  | cons first rest ih =>
    rw [List.append_assoc]
    exact .cons first ih

end Spelled

end DottedKeys.Properties
