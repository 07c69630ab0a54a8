import DottedKeys.Text.Utf16

/-!
# Dotted keys

The last dot of a key parts the field from the path of the group that holds it. A path is a list of
names; empty names at its end do not count, so keys with doubled dots may share a group. Keys are
sorted by their UTF-16 form, stably. Type names are cut as keys are (`split_type_name`). `segments`
are those of `_split_segments`, and `sort` is `sorted_keys` by the units of `_utf16_units`.
-/

namespace DottedKeys.Key

/-- What stands between the names of a key. -/
def dot : CodePoint := '.'

/-- The dotted form of names. -/
def join (names : List Text) : Text :=
  [dot].intercalate names

/-- Names without the empty ones at the end. -/
def dropTrailingEmpty (names : List Text) : List Text :=
  (names.reverse.dropWhile List.isEmpty).reverse

/-- The names of a dotted path. The empty path is one empty name. -/
def segments (path : Text) : List Text :=
  if path.isEmpty then [[]] else dropTrailingEmpty (path.splitOn dot)

/-- The path of the group that holds a key; keys without a dot are held by the root. -/
def path (key : Text) : List Text :=
  match key.splitLast? dot with
  | some (before, _) => segments before
  | none => []

/-- What a key is called inside its group. -/
def field (key : Text) : Text :=
  match key.splitLast? dot with
  | some (_, after) => after
  | none => key

/-- The two parts of a qualified name, of which the first is empty if there is no dot. -/
def splitQualified (name : Text) : Text × Text :=
  (name.splitLast? dot).getD ([], name)

/-- Whether one key may stand before another in sorted order. -/
def precedes (a b : Text) : Bool :=
  !decide (Utf16.encode b < Utf16.encode a)

/-- Keys in sorted order. -/
def sort (keys : List Text) : List Text :=
  keys.mergeSort precedes

theorem precedes_trans (a b c : Text) (hab : precedes a b) (hbc : precedes b c) :
    precedes a c := by
  simp only [precedes, Bool.not_eq_true', decide_eq_false_iff_not, List.not_lt] at *
  exact List.le_trans hab hbc

theorem precedes_total (a b : Text) : precedes a b || precedes b a := by
  simp only [precedes, Bool.or_eq_true, Bool.not_eq_true', decide_eq_false_iff_not, List.not_lt]
  exact List.le_total _ _

/-- Sorting neither drops nor adds a key. -/
theorem sort_perm (keys : List Text) : (sort keys).Perm keys :=
  List.mergeSort_perm keys precedes

/-- Every key may stand before those that follow it. -/
theorem pairwise_sort (keys : List Text) :
    (sort keys).Pairwise fun a b => precedes a b = true :=
  List.pairwise_mergeSort precedes_trans precedes_total keys

end DottedKeys.Key
