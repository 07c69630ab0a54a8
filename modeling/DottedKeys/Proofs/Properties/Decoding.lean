import DottedKeys.Proofs.Properties.Spelling

/-!
# What can be decoded

A raw text is decoded piece by piece, a piece being one code point or one escape (`Stands`). The only
thing that can go wrong is an escape by number without its four digits, so there are few ways in which
a raw text can begin (`byPieces`). `exists_unescape_eq_error_iff` finds the malformed escapes with the
scan from the left, before anything is decoded.
-/

namespace DottedKeys.Properties

/-- A digit of an escape by number. -/
def isHexDigit (c : CodePoint) : Bool :=
  (hexValue? c).isSome

/-- Four digits stand at the head of a text. -/
def StartsWithDigits (t : Text) : Prop :=
  4 ≤ t.length ∧ ∀ c ∈ t.take 4, isHexDigit c = true

instance (t : Text) : Decidable (StartsWithDigits t) :=
  inferInstanceAs (Decidable (_ ∧ _))

/-- Outside an escape of a raw text stand a backslash and the letter u, but no four digits behind
them. -/
def HoldsMalformed (raw : Text) : Prop :=
  ∃ before after, raw = before ++ ('\\' :: 'u' :: after : Text) ∧ isOpenAfter false before = false ∧
    ¬ StartsWithDigits after

/-- A decoded code point, and whether an escape stood for it. -/
structure Lexeme where
  point : CodePoint
  escaped : Bool

/-- A piece of a raw text with the code point that it stands for. -/
inductive Stands : Text → Lexeme → Prop where
  | itself {c : CodePoint} (solid : isBackslash c = false) : Stands [c] ⟨c, false⟩
  | escape {d : CodePoint} (other : d ≠ 'u') : Stands ['\\', d] ⟨control d, true⟩
  | number {named d₁ d₂ d₃ d₄ : CodePoint} (found : ofDigits? d₁ d₂ d₃ d₄ = some named) :
      Stands ['\\', 'u', d₁, d₂, d₃, d₄] ⟨named, true⟩

/-! ## Digits -/

theorem plain_of_isHexDigit {c : CodePoint} (digit : isHexDigit c = true) : Plain c := by
  have none_marked : ∀ d ∈ marks, isHexDigit d = false := by decide
  apply plain_of_not_mem_marks
  intro marked
  rw [none_marked c marked] at digit
  contradiction

section Digits

variable {t : Text} {named d₁ d₂ d₃ d₄ : CodePoint}

/-- Four digits, and no other four code points, name a code point. -/
theorem exists_ofDigits?_iff :
    (∃ named, ofDigits? d₁ d₂ d₃ d₄ = some named) ↔
      ∀ d ∈ [d₁, d₂, d₃, d₄], isHexDigit d = true := by
  simp only [List.forall_mem_cons, List.not_mem_nil, false_implies, implies_true, and_true, isHexDigit,
    ofDigits?]
  cases hexValue? d₁ <;> cases hexValue? d₂ <;> cases hexValue? d₃ <;> cases hexValue? d₄ <;> simp

theorem startsWithDigits_iff :
    StartsWithDigits t ↔ ∃ named d₁ d₂ d₃ d₄ rest, ofDigits? d₁ d₂ d₃ d₄ = some named ∧
      t = d₁ :: d₂ :: d₃ :: d₄ :: rest := by
  constructor
  · rintro ⟨long, digits⟩
    match t, long, digits with
    | d₁ :: d₂ :: d₃ :: d₄ :: rest, _, digits =>
      obtain ⟨named, found⟩ := exists_ofDigits?_iff.2 digits
      exact ⟨named, d₁, d₂, d₃, d₄, rest, found, rfl⟩
  · rintro ⟨named, d₁, d₂, d₃, d₄, rest, found, rfl⟩
    exact ⟨by simp, exists_ofDigits?_iff.1 ⟨named, found⟩⟩

theorem plain_of_ofDigits? (found : ofDigits? d₁ d₂ d₃ d₄ = some named) :
    ∀ d ∈ [d₁, d₂, d₃, d₄], Plain d := fun d inside =>
  plain_of_isHexDigit (exists_ofDigits?_iff.1 ⟨named, found⟩ d inside)

/-- A text that goes on as one that starts with four digits does so too. -/
theorem StartsWithDigits.mono {s : Text} (h : StartsWithDigits s) (front : s <+: t) :
    StartsWithDigits t := by
  obtain ⟨named, d₁, d₂, d₃, d₄, rest, found, rfl⟩ := startsWithDigits_iff.1 h
  obtain ⟨more, rfl⟩ := front
  exact startsWithDigits_iff.2 ⟨named, d₁, d₂, d₃, d₄, rest ++ more, found, rfl⟩

end Digits

/-! ## Piece by piece -/

/-- A raw text is empty, or begins with a piece, or is a lone backslash, or begins with a malformed
escape. What follows a piece is shorter, so induction on raw texts may go from there. -/
theorem byPieces {Holds : Text → Prop} (nil : Holds [])
    (piece : ∀ {s l}, Stands s l → ∀ rest, Holds rest → Holds (s ++ rest)) (lone : Holds ['\\'])
    (malformed : ∀ after, ¬ StartsWithDigits after → Holds ('\\' :: 'u' :: after)) (raw : Text) :
    Holds raw := by
  induction length : raw.length using Nat.strongRecOn generalizing raw with
  | ind n ih =>
    subst length
    have again : ∀ rest : Text, rest.length < raw.length → Holds rest := fun rest shorter =>
      ih _ shorter rest rfl
    match raw, again with
    | [], _ => exact nil
    | c :: rest, again =>
      cases backslash : isBackslash c with
      | false => exact piece (.itself backslash) rest (again rest (by simp))
      | true =>
        obtain rfl : c = '\\' := of_decide_eq_true backslash
        match rest, again with
        | [], _ => exact lone
        | d :: rest, again =>
          by_cases letter : d = 'u'
          · subst letter
            by_cases starts : StartsWithDigits rest
            · obtain ⟨named, d₁, d₂, d₃, d₄, rest, found, rfl⟩ := startsWithDigits_iff.1 starts
              exact piece (.number found) rest (again rest (by simp only [List.length_cons]; omega))
            · exact malformed rest starts
          · exact piece (.escape letter) rest (again rest (by simp only [List.length_cons]; omega))

theorem Stands.closed {s : Text} {l : Lexeme} (h : Stands s l) : isOpenAfter false s = false := by
  have backslash : isBackslash '\\' = true := by decide
  cases h with
  | itself solid => simp [isOpenAfter, solid]
  | escape other => simp [isOpenAfter, backslash]
  | number found =>
    have plain := isOpenAfter_plain (plain_of_ofDigits? found)
    simpa [isOpenAfter, backslash] using plain

/-- A piece is decoded by itself. -/
theorem Stands.unescape {s : Text} {l : Lexeme} (h : Stands s l) (rest : Text) :
    unescape (s ++ rest) = (unescape rest).map (l.point :: ·) := by
  cases h with
  | itself solid => exact unescape_cons solid rest
  | escape other => exact unescape_escape other rest
  | number found => exact unescape_number found rest

/-- Without four digits decoding ends with a report of what stands there. -/
theorem unescape_malformed {after : Text} (malformed : ¬ StartsWithDigits after) :
    unescape ('\\' :: 'u' :: after) = .error ⟨after.take 4⟩ := by
  have backslash : isBackslash '\\' = true := by decide
  rw [unescape.eq_def]
  simp only [backslash, if_true]
  split
  next d₁ d₂ d₃ d₄ rest =>
    cases found : ofDigits? d₁ d₂ d₃ d₄ with
    | none => rfl
    | some named =>
      exact absurd (startsWithDigits_iff.2 ⟨named, d₁, d₂, d₃, d₄, rest, found, rfl⟩) malformed
  next short =>
    obtain _ | ⟨d₁, _ | ⟨d₂, _ | ⟨d₃, _ | ⟨d₄, rest⟩⟩⟩⟩ := after
    · rfl
    · rfl
    · rfl
    · rfl
    · exact absurd rfl (short d₁ d₂ d₃ d₄ rest)

/-! ## Malformed escapes -/

section Malformed

variable {c d : CodePoint} {rest : Text}

theorem not_holdsMalformed_nil : ¬ HoldsMalformed [] := by
  rintro ⟨before, after, whole, -⟩
  simp at whole

theorem not_holdsMalformed_lone : ¬ HoldsMalformed ['\\'] := by
  rintro ⟨before, after, whole, -⟩
  have length := congrArg List.length whole
  simp only [List.length_append, List.length_cons, List.length_nil] at length
  omega

theorem holdsMalformed_cons (solid : isBackslash c = false) :
    HoldsMalformed (c :: rest) ↔ HoldsMalformed rest := by
  constructor
  · rintro ⟨before, after, whole, closed, short⟩
    cases before with
    | nil =>
      obtain ⟨rfl, -⟩ := List.cons.inj whole
      contradiction
    | cons b before =>
      obtain ⟨rfl, below⟩ := List.cons.inj whole
      rw [isOpenAfter, solid] at closed
      exact ⟨before, after, below, closed, short⟩
  · rintro ⟨before, after, rfl, closed, short⟩
    refine ⟨c :: before, after, rfl, ?_, short⟩
    rw [isOpenAfter, solid]
    exact closed

theorem holdsMalformed_escape :
    HoldsMalformed ('\\' :: d :: rest) ↔ (d = 'u' ∧ ¬ StartsWithDigits rest) ∨ HoldsMalformed rest := by
  have opens : ∀ t, isOpenAfter false ('\\' :: d :: t) = isOpenAfter false t := by
    intro t
    have backslash : isBackslash '\\' = true := by decide
    simp [isOpenAfter, backslash]
  constructor
  · rintro ⟨before, after, whole, closed, short⟩
    obtain _ | ⟨b, _ | ⟨b', before⟩⟩ := before
    · obtain ⟨letter, rfl⟩ := List.cons.inj (List.cons.inj whole).2
      exact .inl ⟨letter, short⟩
    · -- The escape would be open where the malformed one begins.
      obtain ⟨rfl, -⟩ := List.cons.inj whole
      contradiction
    · obtain ⟨rfl, shorter⟩ := List.cons.inj whole
      obtain ⟨rfl, below⟩ := List.cons.inj shorter
      rw [opens] at closed
      exact .inr ⟨before, after, below, closed, short⟩
  · rintro (⟨rfl, short⟩ | ⟨before, after, rfl, closed, short⟩)
    · exact ⟨[], rest, rfl, rfl, short⟩
    · exact ⟨'\\' :: d :: before, after, rfl, (opens before).trans closed, short⟩

/-- A malformed escape neither is a piece nor begins inside one. -/
theorem Stands.holdsMalformed_iff {s : Text} {l : Lexeme} (h : Stands s l) :
    HoldsMalformed (s ++ rest) ↔ HoldsMalformed rest := by
  cases h with
  | itself solid => exact holdsMalformed_cons solid
  | @escape d other =>
    have pair : HoldsMalformed ('\\' :: d :: rest) ↔ HoldsMalformed rest := by
      rw [holdsMalformed_escape]
      simp [other]
    exact pair
  | @number named d₁ d₂ d₃ d₄ found =>
    have starts := startsWithDigits_iff.2 ⟨named, d₁, d₂, d₃, d₄, rest, found, rfl⟩
    have solid : ∀ d ∈ [d₁, d₂, d₃, d₄], isBackslash d = false := fun d inside =>
      (plain_of_ofDigits? found d inside).backslash
    have six : HoldsMalformed ('\\' :: 'u' :: d₁ :: d₂ :: d₃ :: d₄ :: rest) ↔ HoldsMalformed rest := by
      rw [holdsMalformed_escape, holdsMalformed_cons (solid d₁ (by simp)),
        holdsMalformed_cons (solid d₂ (by simp)), holdsMalformed_cons (solid d₃ (by simp)),
        holdsMalformed_cons (solid d₄ (by simp))]
      simp [starts]
    exact six

end Malformed

/-- A raw text cannot be decoded exactly if it holds a malformed escape. -/
theorem exists_unescape_eq_error_iff (raw : Text) :
    (∃ fault, unescape raw = .error fault) ↔ HoldsMalformed raw := by
  induction raw using byPieces with
  | nil => simpa [unescape] using not_holdsMalformed_nil
  | @piece s l stands rest ih =>
    rw [stands.unescape, stands.holdsMalformed_iff, ← ih]
    cases unescape rest <;> simp [Except.map]
  | lone =>
    have dropped : unescape ['\\'] = .ok [] := rfl
    simpa [dropped] using not_holdsMalformed_lone
  | malformed after short =>
    have failed := unescape_malformed short
    have holds : HoldsMalformed ('\\' :: 'u' :: after) := holdsMalformed_escape.2 (.inl ⟨rfl, short⟩)
    simp [failed, holds]

end DottedKeys.Properties
