import DottedKeys.Proofs.Properties.Decoding
import DottedKeys.Proofs.Properties.Entry
import Mathlib.Data.List.DropRight

/-!
# Lines decoded before they are cut

A line is cut into a key and a value while its escapes are still there, and each part is decoded by
itself. The other way round, a line is first decoded into lexemes, which remember whether an escape
stood for them, and delimiters and blanks are looked for among those that none stood for. Each pass
over the line has its counterpart on lexemes (`split_lexemes?`, `lexemes?_skipDelimiter`,
`trim_lexemes?`), and `toOption_decodeEntry` says that both ways read the same entry, or none.
-/

namespace DottedKeys.Properties

/-- A line decoded from left to right. There is nothing to be had of a line with an escape by number
that lacks a digit. -/
def lexemes? : Text → Option (List Lexeme)
  | [] => some []
  | c :: rest =>
    if isBackslash c then
      match rest with
      | [] => some []
      | d :: rest =>
        if d = 'u' then
          match rest with
          | d₁ :: d₂ :: d₃ :: d₄ :: rest => do
            let named ← ofDigits? d₁ d₂ d₃ d₄
            return ⟨named, true⟩ :: (← lexemes? rest)
          | _ => none
        else (lexemes? rest).map (⟨control d, true⟩ :: ·)
    else (lexemes? rest).map (⟨c, false⟩ :: ·)

namespace Lexeme

/-- A blank that no escape stood for. -/
def isBlank (l : Lexeme) : Bool :=
  !l.escaped && Properties.isBlank l.point

/-- A separator that no escape stood for. -/
def isSeparator (l : Lexeme) : Bool :=
  !l.escaped && Properties.isSeparator l.point

/-- What ends a key: a blank or a separator that no escape stood for. -/
def isDelimiter (l : Lexeme) : Bool :=
  l.isSeparator || l.isBlank

/-- Lexemes without the blanks in front. -/
def skipBlanks (ls : List Lexeme) : List Lexeme :=
  ls.dropWhile isBlank

/-- Lexemes without the separator in front, if there is one. -/
def skipSeparator : List Lexeme → List Lexeme
  | [] => []
  | l :: rest => if l.isSeparator then rest else l :: rest

/-- Lexemes without the blanks at the end. -/
def trimEnd (ls : List Lexeme) : List Lexeme :=
  ls.rdropWhile isBlank

/-- The code points of lexemes. -/
def text (ls : List Lexeme) : Text :=
  ls.map point

/-- The key and the value of a decoded line: what stands before the first delimiter, and what is left
behind blanks, at most one separator and blanks again, without the blanks at its end. -/
def entry (ls : List Lexeme) : Text × Text :=
  (text (ls.takeWhile (!·.isDelimiter)),
    text (trimEnd (skipBlanks (skipSeparator (skipBlanks (ls.dropWhile (!·.isDelimiter)))))))

end Lexeme

/-! ## Decoding -/

theorem Stands.lexemes? {s : Text} {l : Lexeme} (h : Stands s l) (rest : Text) :
    lexemes? (s ++ rest) = (lexemes? rest).map (l :: ·) := by
  have backslash : isBackslash '\\' = true := by decide
  rw [lexemes?.eq_def]
  cases h with
  | itself solid => simp [solid]
  | escape other => simp [backslash, other]
  | number found =>
    simp only [List.cons_append, List.nil_append, backslash, if_true, found]
    cases Properties.lexemes? rest <;> rfl

theorem lexemes?_malformed {after : Text} (malformed : ¬ StartsWithDigits after) :
    lexemes? ('\\' :: 'u' :: after) = none := by
  have backslash : isBackslash '\\' = true := by decide
  rw [lexemes?.eq_def]
  simp only [backslash, if_true]
  split
  next d₁ d₂ d₃ d₄ rest =>
    cases found : ofDigits? d₁ d₂ d₃ d₄ with
    | none => rfl
    | some named =>
      exact absurd (startsWithDigits_iff.2 ⟨named, d₁, d₂, d₃, d₄, rest, found, rfl⟩) malformed
  next => rfl

theorem toOption_map {ε α β : Type} (f : α → β) (result : Except ε α) :
    (result.map f).toOption = result.toOption.map f := by
  cases result <;> rfl

/-- The code points of lexemes are those that a raw text stands for. -/
theorem toOption_unescape (raw : Text) :
    (unescape raw).toOption = (lexemes? raw).map Lexeme.text := by
  induction raw using byPieces with
  | nil => rfl
  | @piece s l stands rest ih =>
    rw [stands.unescape, stands.lexemes?, toOption_map, ih, Option.map_map, Option.map_map]
    rfl
  | lone => rfl
  | malformed after short =>
    rw [unescape_malformed short, lexemes?_malformed short]
    rfl

/-! ## The cut behind the key -/

/-- A piece begins with a blank or a separator exactly if it stands for one that is not escaped, and
then it is no longer than that. -/
theorem Stands.eq_cons {s : Text} {l : Lexeme} (h : Stands s l) :
    ∃ c more, s = c :: more ∧ isBlank c = l.isBlank ∧ isSeparator c = l.isSeparator ∧
      (l.isDelimiter = true → more = []) := by
  cases h with
  | @itself c solid => exact ⟨c, [], rfl, rfl, rfl, fun _ => rfl⟩
  | @escape d other => exact ⟨'\\', [d], rfl, rfl, rfl, fun delimits => nomatch delimits⟩
  | @number named d₁ d₂ d₃ d₄ found =>
    exact ⟨'\\', ['u', d₁, d₂, d₃, d₄], rfl, rfl, rfl, fun delimits => nomatch delimits⟩

theorem cutKey_escape (d : CodePoint) (rest : Text) :
    cutKey false ('\\' :: d :: rest) =
      (('\\' :: d :: (cutKey false rest).1 : Text), (cutKey false rest).2) := by
  have backslash : isBackslash '\\' = true := by decide
  have opens : isDelimiter '\\' = false := by decide
  simp [cutKey, opens, backslash]

/-- No key ends inside a piece that is not a delimiter. -/
theorem Stands.cutKey {s : Text} {l : Lexeme} (h : Stands s l) (kept : l.isDelimiter = false)
    (rest : Text) :
    cutKey false (s ++ rest) = (s ++ (cutKey false rest).1, (cutKey false rest).2) := by
  cases h with
  | @itself c solid =>
    have through : isDelimiter c = false := kept
    simp [Properties.cutKey, solid, through]
  | escape other => exact cutKey_escape _ rest
  | @number named d₁ d₂ d₃ d₄ found =>
    have digits := cutKey_plain (plain_of_ofDigits? found) rest
    have six := cutKey_escape 'u' ([d₁, d₂, d₃, d₄] ++ rest)
    rw [digits] at six
    exact six

/-- A key is the beginning of its line. -/
theorem cutKey_append (escaped : Bool) (t : Text) :
    (cutKey escaped t).1 ++ (cutKey escaped t).2 = t := by
  induction t generalizing escaped with
  | nil => rfl
  | cons c rest ih =>
    rw [cutKey]
    split
    · rfl
    · rw [List.cons_append, ih]

/-- The key of a line and the rest of it hold the lexemes of the line, cut at the first delimiter. -/
theorem split_lexemes? (line : Text) :
    (lexemes? line).map (fun ls => (ls.takeWhile (!·.isDelimiter), ls.dropWhile (!·.isDelimiter))) =
      (lexemes? (cutKey false line).1).bind fun key =>
        (lexemes? (cutKey false line).2).map (key, ·) := by
  induction line using byPieces with
  | nil => rfl
  | @piece s l stands rest ih =>
    cases kept : l.isDelimiter with
    | true =>
      obtain ⟨c, more, rfl, blank, mark, single⟩ := stands.eq_cons
      have delimits : isDelimiter c = true := by rwa [isDelimiter, blank, mark]
      rw [stands.lexemes?, single kept, List.singleton_append, cutKey_of_head (by simpa using delimits),
        Option.map_map]
      have whole := stands.lexemes? rest
      rw [single kept, List.singleton_append] at whole
      rw [whole]
      cases lexemes? rest <;> simp [lexemes?, kept]
    | false =>
      rw [stands.cutKey kept, stands.lexemes?, stands.lexemes?, Option.map_map]
      cases key : lexemes? (cutKey false rest).1 <;> cases more : lexemes? (cutKey false rest).2 <;>
        cases whole : lexemes? rest <;> simp_all
  | lone => rfl
  | malformed after short =>
    have still_short : ¬ StartsWithDigits (cutKey false after).1 := fun starts =>
      short (starts.mono ⟨_, cutKey_append false after⟩)
    rw [cutKey_escape, lexemes?_malformed short, lexemes?_malformed still_short]
    rfl

/-! ## The delimiter -/

/-- A text without the separator in front, if there is one. -/
def skipSeparator : Text → Text
  | [] => []
  | c :: rest => if isSeparator c then rest else c :: rest

/-- A delimiter is passed over in three steps. -/
theorem skipDelimiter_eq (t : Text) :
    skipDelimiter t = skipBlanks (skipSeparator (skipBlanks t)) := by
  have again : skipBlanks (skipBlanks t) = skipBlanks t := List.dropWhile_idempotent isBlank t
  rw [skipDelimiter]
  cases left : skipBlanks t with
  | nil => rfl
  | cons c rest =>
    rw [left] at again
    cases mark : isSeparator c with
    | true => simp [skipSeparator, mark]
    | false => simp [skipSeparator, mark, again]

theorem lexemes?_skipBlanks (t : Text) :
    lexemes? (skipBlanks t) = (lexemes? t).map Lexeme.skipBlanks := by
  induction t using byPieces with
  | nil => rfl
  | @piece s l stands rest ih =>
    obtain ⟨c, more, rfl, blank, -, single⟩ := stands.eq_cons
    rw [stands.lexemes?]
    cases passed : l.isBlank with
    | true =>
      have skipped : skipBlanks ([c] ++ rest) = skipBlanks rest := by
        simp [skipBlanks, blank, passed]
      rw [single (by simp [Lexeme.isDelimiter, passed]), skipped, ih]
      cases lexemes? rest <;> simp [Lexeme.skipBlanks, passed]
    | false =>
      rw [passed] at blank
      rw [List.cons_append, skipBlanks_cons blank, ← List.cons_append, stands.lexemes?]
      cases lexemes? rest <;> simp [Lexeme.skipBlanks, passed]
  | lone => rfl
  | malformed after short =>
    rw [skipBlanks_cons (by decide), lexemes?_malformed short]
    rfl

theorem lexemes?_skipSeparator (t : Text) :
    lexemes? (skipSeparator t) = (lexemes? t).map Lexeme.skipSeparator := by
  cases t using byPieces with
  | nil => rfl
  | @piece s l stands rest =>
    obtain ⟨c, more, rfl, -, mark, single⟩ := stands.eq_cons
    rw [stands.lexemes?]
    cases passed : l.isSeparator with
    | true =>
      have skipped : skipSeparator ([c] ++ rest) = rest := by simp [skipSeparator, mark, passed]
      rw [single (by simp [Lexeme.isDelimiter, passed]), skipped]
      cases lexemes? rest <;> simp [Lexeme.skipSeparator, passed]
    | false =>
      have same : skipSeparator (c :: more ++ rest) = c :: more ++ rest := by
        simp [skipSeparator, mark, passed]
      rw [same, stands.lexemes?]
      cases lexemes? rest <;> simp [Lexeme.skipSeparator, passed]
  | lone => rfl
  | malformed after short =>
    have same : skipSeparator ('\\' :: 'u' :: after) = ('\\' :: 'u' :: after : Text) := rfl
    rw [same, lexemes?_malformed short]
    rfl

/-- The delimiter that is passed over holds no escape. -/
theorem lexemes?_skipDelimiter (t : Text) :
    lexemes? (skipDelimiter t) = (lexemes? t).map fun ls =>
      Lexeme.skipBlanks (Lexeme.skipSeparator (Lexeme.skipBlanks ls)) := by
  rw [skipDelimiter_eq, lexemes?_skipBlanks, lexemes?_skipSeparator, lexemes?_skipBlanks,
    Option.map_map, Option.map_map]
  rfl

/-! ## The end of the value -/

/-- What is trimmed of a list is trimmed of what stands behind its head, and of the head only if
nothing else is left. -/
theorem rdropWhile_cons {α : Type} (p : α → Bool) (a : α) (as : List α) :
    (a :: as).rdropWhile p =
      if (as.rdropWhile p).isEmpty then if p a then [] else [a] else a :: as.rdropWhile p := by
  rw [List.rdropWhile, List.reverse_cons, List.dropWhile_append, List.rdropWhile, List.isEmpty_reverse]
  split
  next => cases last : p a <;> simp [last]
  next => simp

theorem dropUnescapedBlanks_suffix (t : Text) : dropUnescapedBlanks t <:+ t := by
  induction t with
  | nil => exact List.suffix_refl _
  | cons c rest ih =>
    rw [dropUnescapedBlanks]
    split
    · exact ih.trans (List.suffix_cons c rest)
    · exact List.suffix_refl _

theorem trimValue_isPrefix (t : Text) : trimValue t <+: t := by
  rw [trimValue, ← List.reverse_suffix, List.reverse_reverse]
  exact dropUnescapedBlanks_suffix _

theorem trimValue_nil : trimValue [] = [] :=
  rfl

/-- A piece is trimmed if it stands for a blank that is not escaped. -/
theorem Stands.trimValue {s : Text} {l : Lexeme} (h : Stands s l) :
    trimValue s = if l.isBlank then [] else s := by
  cases h with
  | @itself c solid =>
    have last := trimValue_concat [] c
    have same : Lexeme.isBlank ⟨c, false⟩ = isBlank c := rfl
    simpa [isOpenAfter, same, trimValue_nil] using last
  | @escape d other =>
    have last := trimValue_concat ['\\'] d
    have opens : isOpenAfter false ['\\'] = true := by decide
    have escaped : Lexeme.isBlank ⟨control d, true⟩ = false := rfl
    simpa [opens, escaped] using last
  | @number named d₁ d₂ d₃ d₄ found =>
    have last := trimValue_concat ['\\', 'u', d₁, d₂, d₃] d₄
    have solid : isBlank d₄ = false := (plain_of_ofDigits? found d₄ (by simp)).blank
    have escaped : Lexeme.isBlank ⟨named, true⟩ = false := rfl
    simpa [solid, escaped] using last

/-- The blanks that are trimmed of a text are those that are trimmed of its lexemes. -/
theorem trim_lexemes? {t : Text} (closed : isOpenAfter false t = false) :
    lexemes? (trimValue t) = (lexemes? t).map Lexeme.trimEnd ∧
      ∀ ls ∈ lexemes? t, (trimValue t).isEmpty = (Lexeme.trimEnd ls).isEmpty := by
  -- Whether the head is trimmed depends on whether anything is left behind it, on both sides.
  induction t using byPieces with
  | nil =>
    refine ⟨rfl, fun ls read => ?_⟩
    obtain rfl : [] = ls := Option.some.inj read
    rfl
  | @piece s l stands rest ih =>
    rw [isOpenAfter_append, stands.closed] at closed
    obtain ⟨same, bare⟩ := ih closed
    rw [stands.lexemes?, trimValue_append stands.closed, stands.trimValue]
    cases read : lexemes? rest with
    | none =>
      rw [read] at same
      have some_left : (trimValue rest).isEmpty = false := by
        cases left : trimValue rest with
        | nil =>
          rw [left] at same
          contradiction
        | cons c more => rfl
      rw [some_left]
      simp [stands.lexemes?, same]
    | some ls =>
      have alone : lexemes? s = some [l] := by simpa [lexemes?] using stands.lexemes? []
      have some_piece : s ≠ [] := by
        obtain ⟨c, more, rfl, -⟩ := stands.eq_cons
        exact List.cons_ne_nil c more
      have trimmed : Lexeme.trimEnd (l :: ls) =
          if (Lexeme.trimEnd ls).isEmpty then if l.isBlank then [] else [l]
          else l :: Lexeme.trimEnd ls := rdropWhile_cons _ l ls
      rw [read] at same
      rw [bare ls read]
      simp only [Option.map_some, Option.mem_some_iff, forall_eq', trimmed]
      cases (Lexeme.trimEnd ls).isEmpty with
      | true => cases l.isBlank <;> simp [lexemes?, alone, some_piece]
      | false => simp [stands.lexemes?, same, some_piece]
  | lone => contradiction
  | malformed after short =>
    have still_short : ¬ StartsWithDigits (trimValue after) := fun starts =>
      short (starts.mono (trimValue_isPrefix after))
    have kept : trimValue ['\\', 'u'] = (['\\', 'u'] : Text) := by decide
    have begun := trimValue_append (s := ['\\', 'u']) (by decide) after
    rw [kept] at begun
    have none_read : lexemes? (trimValue ('\\' :: 'u' :: after)) = none := by
      refine (congrArg lexemes? begun).trans ?_
      split
      · exact lexemes?_malformed (by decide)
      · exact lexemes?_malformed still_short
    rw [none_read, lexemes?_malformed short]
    exact ⟨rfl, by simp⟩

/-! ## The entry -/

/-- What stands behind a key ends as the line does. -/
theorem isOpenAfter_cutKey {escaped : Bool} {t : Text} (closed : isOpenAfter escaped t = false) :
    isOpenAfter false (cutKey escaped t).2 = false := by
  induction t generalizing escaped with
  | nil => rfl
  | cons c rest ih =>
    rw [cutKey]
    split
    next ends =>
      rw [Bool.and_eq_true, Bool.not_eq_true'] at ends
      rwa [ends.1] at closed
    next => exact ih closed

theorem isOpenAfter_skipBlanks {t : Text} (closed : isOpenAfter false t = false) :
    isOpenAfter false (skipBlanks t) = false :=
  (isOpenAfter_skipBlanks_eq t).trans closed

theorem isOpenAfter_skipSeparator {t : Text} (closed : isOpenAfter false t = false) :
    isOpenAfter false (skipSeparator t) = false := by
  cases t with
  | nil => rfl
  | cons c rest =>
    rw [skipSeparator]
    split
    next mark => rwa [isOpenAfter, (solid_of_isSeparator mark).2.1] at closed
    next => exact closed

theorem toOption_bind {ε α β : Type} (first : Except ε α) (next : α → Except ε β) :
    (first >>= next).toOption = first.toOption.bind fun a => (next a).toOption := by
  cases first <;> rfl

/-- The parts of an entry are decoded from the parts of its line, both or none. -/
theorem toOption_decodeEntry_eq (line : Text) :
    (decodeEntry line).toOption =
      (lexemes? (splitEntry line).1).bind fun key =>
        (lexemes? (trimValue (splitEntry line).2)).map fun value =>
          (Lexeme.text key, Lexeme.text value) := by
  rw [decodeEntry, toOption_bind, toOption_unescape]
  simp only [toOption_bind, toOption_unescape, Option.bind_map]
  simp only [Option.map_eq_bind, Function.comp_def]
  -- The value is decoded before the key, and it makes no difference.
  exact Option.bind_comm _ _

/-- **Decoding and cutting commute.** Of a line that ends outside an escape the same entry is read
whether it is cut first and its parts are decoded, or it is decoded first and its lexemes are cut; and
where the one way reads no entry, neither does the other. Every logical line is such a line. -/
theorem toOption_decodeEntry :
    (∀ line, trailingBackslashes line % 2 = 0 →
      (decodeEntry line).toOption = (lexemes? line).map Lexeme.entry) ∧
    ∀ t, ∀ line ∈ logicalLines t, trailingBackslashes line % 2 = 0 := by
  refine ⟨fun line even => ?_, fun t line member => even_of_mem_logicalLines member⟩
  have closed : isOpenAfter false line = false := by simp [isOpenAfter_eq, even]
  have value : lexemes? (trimValue (splitEntry line).2) =
      (lexemes? (cutKey false line).2).map fun ls =>
        Lexeme.trimEnd (Lexeme.skipBlanks (Lexeme.skipSeparator (Lexeme.skipBlanks ls))) := by
    show lexemes? (trimValue (skipDelimiter (cutKey false line).2)) = _
    have ended : isOpenAfter false (skipDelimiter (cutKey false line).2) = false := by
      rw [skipDelimiter_eq]
      exact isOpenAfter_skipBlanks (isOpenAfter_skipSeparator (isOpenAfter_skipBlanks
        (isOpenAfter_cutKey closed)))
    rw [(trim_lexemes? ended).1, lexemes?_skipDelimiter, Option.map_map]
    rfl
  have cut : (lexemes? line).map Lexeme.entry =
      ((lexemes? line).map fun ls =>
        (ls.takeWhile (!·.isDelimiter), ls.dropWhile (!·.isDelimiter))).map fun parts =>
          (Lexeme.text parts.1, Lexeme.text (Lexeme.trimEnd (Lexeme.skipBlanks
            (Lexeme.skipSeparator (Lexeme.skipBlanks parts.2))))) := by
    rw [Option.map_map]
    rfl
  have key : (splitEntry line).1 = (cutKey false line).1 := rfl
  rw [toOption_decodeEntry_eq, value, key, cut, split_lexemes?, Option.map_bind]
  simp only [Function.comp_def, Option.map_map]

/-- A line with a separator by number in its key, a second separator, and two blanks at the end, of
which the first is escaped. -/
def markedLine : Text :=
  "a\\u003Db =: c\\  "

theorem toOption_decodeEntry_markedLine :
    trailingBackslashes markedLine % 2 = 0 ∧
      (decodeEntry markedLine).toOption = some (("a=b" : Text), (": c " : Text)) := by
  have even : trailingBackslashes markedLine % 2 = 0 := by decide +kernel
  have read : (lexemes? markedLine).map Lexeme.entry = some (("a=b" : Text), (": c " : Text)) := by decide +kernel
  exact ⟨even, (toOption_decodeEntry.1 markedLine even).trans read⟩

end DottedKeys.Properties
