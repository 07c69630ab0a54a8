import DottedKeys.Proofs.Disk.Path
import DottedKeys.Proofs.Key.Path

/-!
# Paths and their texts

A path is written with a slash between its names, and read by splitting at slashes. `splitOn_intercalate`
and `parse_text_append` read back what was written; `ofTexts_eq` says what becomes of several texts of
which none starts with a slash, and `anchor_ofTexts_eq_here_iff` that this is the only case in which
none of them is discarded.
-/

namespace DottedKeys

namespace Text

variable {mark : CodePoint}

/-- Pieces without marks come back from their joined text. -/
theorem splitOn_intercalate {pieces : List Text} (some_piece : pieces ≠ [])
    (unmarked : ∀ piece ∈ pieces, mark ∉ piece) :
    splitOn mark ([mark].intercalate pieces) = pieces := by
  induction pieces with
  | nil => exact absurd rfl some_piece
  | cons piece pieces ih =>
    have first := splitOn_of_not_mem (unmarked piece List.mem_cons_self)
    cases pieces with
    | nil => rwa [List.intercalate_singleton]
    | cons next pieces =>
      have later := ih (by simp) fun other among => unmarked other (List.mem_cons_of_mem piece among)
      rw [List.intercalate_cons_cons, List.append_assoc, List.singleton_append, splitOn_append_mark,
        first, later, List.singleton_append]

/-- What is written behind joined pieces is written behind the last of them. -/
theorem intercalate_concat_append (pieces : List Text) (last t : Text) :
    [mark].intercalate (pieces ++ [last]) ++ t = [mark].intercalate (pieces ++ [last ++ t]) := by
  induction pieces with
  | nil => simp [List.intercalate]
  | cons piece pieces ih =>
    cases pieces with
    | nil => simp [List.intercalate]
    | cons next pieces =>
      simp only [List.cons_append, List.intercalate_cons_cons, List.append_assoc] at ih ⊢
      rw [ih]

theorem nil_mem_splitOn_of_head? {t : Text} (marked : t.head? = some mark) : [] ∈ splitOn mark t := by
  cases t with
  | nil => contradiction
  | cons c t =>
    obtain rfl : c = mark := Option.some.inj marked
    rw [splitOn, if_pos rfl]
    exact List.mem_cons_self

end Text

namespace Path

variable {t name : Text} {parts : List Text} {p q : Path}

theorem names_parse (among : name ∈ (parse t).names) : name ≠ [] ∧ name ≠ "." ∧ slash ∉ name := by
  obtain ⟨piece, busy⟩ := List.mem_filter.1 among
  have idle : ¬ (name = [] ∨ name = ".") := by simpa [isIdle] using busy
  exact ⟨fun bare => idle (.inl bare), fun dot => idle (.inr dot), Text.not_mem_of_mem_splitOn piece⟩

theorem anchorOf_eq_here_iff : anchorOf t = .here ↔ t.head? ≠ some slash := by
  cases t with
  | nil => decide
  | cons c t =>
    rw [List.head?_cons, ne_eq, Option.some.injEq, anchorOf]
    by_cases same : c = slash
    · rw [List.takeWhile_cons_of_pos (by simpa using same), List.length_cons]
      simp only [same, not_true_eq_false, iff_false]
      split <;> simp_all
    · rw [List.takeWhile_cons_of_neg (by simpa using same)]
      simp [same]

/-- A text without slashes in a row, at its start or at its end is read piece by piece. -/
theorem parse_eq_of_solid (solid : [] ∉ t.splitOn slash) (dotless : ("." : Text) ∉ t.splitOn slash) :
    parse t = ⟨.here, t.splitOn slash⟩ := by
  have relative : anchorOf t = .here :=
    anchorOf_eq_here_iff.2 fun marked => solid (Text.nil_mem_splitOn_of_head? marked)
  have busy : ∀ piece ∈ t.splitOn slash, (!isIdle piece) = true := by
    intro piece among
    have some_piece : piece ≠ [] := fun bare => solid (bare ▸ among)
    have no_dot : piece ≠ "." := fun dot => dotless (dot ▸ among)
    simp [isIdle, some_piece, no_dot]
  rw [parse, relative, List.filter_eq_self.2 busy]

/-! ## Several texts -/

theorem anchor_join_eq_here_iff : (p.join q).anchor = .here ↔ p.anchor = .here ∧ q.anchor = .here := by
  rw [join]
  split
  next relative => simp [relative]
  next absolute => simp [absolute]

/-- Only texts that do not start with a slash are all kept. -/
theorem anchor_ofTexts_eq_here_iff :
    (ofTexts parts).anchor = .here ↔ ∀ part ∈ parts, part.head? ≠ some slash := by
  suffices main : ∀ p : Path, (parts.foldl (fun p part => p.join (parse part)) p).anchor = .here ↔
      p.anchor = .here ∧ ∀ part ∈ parts, part.head? ≠ some slash by
    exact (main ⟨.here, []⟩).trans (and_iff_right rfl)
  induction parts with
  | nil => simp
  | cons part parts ih =>
    intro p
    have first : (parse part).anchor = .here ↔ part.head? ≠ some slash := anchorOf_eq_here_iff
    rw [List.foldl_cons, ih, anchor_join_eq_here_iff, first, List.forall_mem_cons, and_assoc]

/-- Texts that do not start with a slash follow one another. -/
theorem ofTexts_eq (relative : ∀ part ∈ parts, part.head? ≠ some slash) :
    ofTexts parts = ⟨.here, parts.flatMap fun part => (parse part).names⟩ := by
  suffices main : ∀ p : Path, parts.foldl (fun p part => p.join (parse part)) p =
      ⟨p.anchor, p.names ++ parts.flatMap fun part => (parse part).names⟩ by
    exact main ⟨.here, []⟩
  induction parts with
  | nil => exact fun p => by simp
  | cons part parts ih =>
    intro p
    have first : (parse part).anchor = .here :=
      anchorOf_eq_here_iff.2 (relative part List.mem_cons_self)
    rw [List.foldl_cons, ih fun other among => relative other (List.mem_cons_of_mem part among), join,
      if_pos first, List.flatMap_cons, List.append_assoc]

theorem names_ofTexts (among : name ∈ (ofTexts parts).names) :
    name ≠ [] ∧ name ≠ "." ∧ slash ∉ name := by
  obtain ⟨part, -, inside⟩ := mem_names_ofTexts among
  exact names_parse inside

/-! ## Texts -/

theorem text_eq_of_names (some_name : p.names ≠ []) :
    p.text = p.anchor.text ++ [slash].intercalate p.names := by
  have filled : p.names.isEmpty = false := by simpa using some_name
  rw [text, filled, Bool.and_false, if_neg Bool.false_ne_true]

theorem head?_intercalate {names : List Text} (first : name ≠ []) :
    ([slash].intercalate (name :: names)).head? = name.head? := by
  cases names with
  | nil => simp [List.intercalate]
  | cons next names =>
    rw [List.intercalate_cons_cons, List.append_assoc, List.head?_append_of_ne_nil _ first]

/-- The text of a path starts with a slash exactly if the path starts at a root. -/
theorem head?_text_append (solid : ∀ name ∈ p.names, name ≠ [] ∧ slash ∉ name) (t : Text) :
    (p.text ++ t).head? = some slash ↔ p.anchor ≠ .here := by
  obtain ⟨anchor, names⟩ := p
  cases anchor with
  | here =>
    simp only [ne_eq, not_true_eq_false, iff_false]
    cases names with
    | nil =>
      have dot : (text ⟨.here, []⟩ ++ t).head? = some '.' := rfl
      rw [dot]
      decide
    | cons first names =>
      obtain ⟨some_name, unmarked⟩ := solid first List.mem_cons_self
      have filled : [slash].intercalate (first :: names) ≠ [] := by
        cases names <;> simp [List.intercalate, some_name]
      rw [text_eq_of_names (by simp), Anchor.text, List.nil_append,
        List.head?_append_of_ne_nil _ filled, head?_intercalate some_name]
      exact fun marked => unmarked (List.mem_of_mem_head? marked)
  | root => exact iff_of_true rfl (by simp)
  | secondRoot => exact iff_of_true rfl (by simp)

/-- What is written behind the text of a path goes on with its last name. -/
theorem parse_text_append {names : List Text} {last : Text}
    (solid : ∀ name ∈ names ++ [last ++ t], name ≠ [] ∧ name ≠ "." ∧ slash ∉ name) :
    parse (text ⟨.here, names ++ [last]⟩ ++ t) = ⟨.here, names ++ [last ++ t]⟩ := by
  have written : text ⟨.here, names ++ [last]⟩ ++ t = [slash].intercalate (names ++ [last ++ t]) := by
    rw [text_eq_of_names (by simp), Anchor.text, List.nil_append, Text.intercalate_concat_append]
  have pieces : Text.splitOn slash ([slash].intercalate (names ++ [last ++ t])) = names ++ [last ++ t] :=
    Text.splitOn_intercalate (by simp) fun piece among => (solid piece among).2.2
  rw [written, parse_eq_of_solid]
  · rw [pieces]
  · rw [pieces]
    exact fun bare => (solid [] bare).1 rfl
  · rw [pieces]
    exact fun dot => (solid _ dot).2.1 rfl

end Path

end DottedKeys
