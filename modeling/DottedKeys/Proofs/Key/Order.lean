import DottedKeys.Proofs.Text.RankOrder
import DottedKeys.Source.Render

/-!
# The order of sorted keys

Sorted order is that of the bytes of keys, which is that of their units and, without surrogates, that
of the ranks of code points. Keys that share their bytes keep the order in which they came; that and
the order determine the sorted keys (`perm_ordered_stable_sort`). Only keys with a pair of surrogates
can share their bytes (`eq_of_precedes`); all others are sorted, and then rendered, in one way
whatever order they came in (`sort_eq_of_perm`).
-/

namespace DottedKeys.Key

/-- Keys are sorted by their units. -/
theorem precedes_iff {a b : Text} : precedes a b = true ↔ Utf16.units a ≤ Utf16.units b := by
  simp only [precedes, Bool.not_eq_true', decide_eq_false_iff_not, Utf16.encode_lt_iff]
  exact List.not_lt

/-- Keys with the same units keep the order in which they came. -/
theorem filter_sort (keys : List Text) (us : List UInt16) :
    (sort keys).filter (Utf16.units · = us) = keys.filter (Utf16.units · = us) := by
  have tied : (keys.filter (Utf16.units · = us)).Pairwise fun a b => precedes a b = true := by
    apply List.pairwise_of_forall_mem_list
    intro a first b second
    have spelled : Utf16.units a = us := of_decide_eq_true (List.mem_filter.1 first).2
    have spelled' : Utf16.units b = us := of_decide_eq_true (List.mem_filter.1 second).2
    rw [precedes_iff, spelled, spelled']
    exact List.le_refl us
  have kept : (keys.filter (Utf16.units · = us)).Sublist (sort keys) :=
    List.sublist_mergeSort precedes_trans precedes_total tied List.filter_sublist
  have inside := kept.filter (Utf16.units · = us)
  rw [List.filter_filter] at inside
  simp only [Bool.and_self] at inside
  exact (inside.eq_of_length ((sort_perm keys).filter _).length_eq.symm).symm

/-- **Sorting keys.** Keys are rearranged in ascending order of their units, and keys with the same
units keep the order in which they came. The order of units is that of the bytes, and for keys without
surrogates it is decided by the ranks of the code points in which two keys first differ, a key that
another begins with coming first. -/
theorem perm_ordered_stable_sort (keys : List Text) :
    (sort keys).Perm keys ∧
      (sort keys).Pairwise (fun a b => Utf16.units a ≤ Utf16.units b) ∧
      (∀ us, (sort keys).filter (Utf16.units · = us) = keys.filter (Utf16.units · = us)) ∧
      (∀ a b : Text, Utf16.encode a < Utf16.encode b ↔ Utf16.units a < Utf16.units b) ∧
      ∀ a b : Text, (∀ c ∈ a, c.isSurrogate = false) → (∀ c ∈ b, c.isSurrogate = false) →
        (Utf16.units a < Utf16.units b ↔ a.Before b) := by
  refine ⟨sort_perm keys, ?_, filter_sort keys, fun a b => Utf16.encode_lt_iff,
    fun a b whole whole' => Utf16.units_lt_iff_before whole whole'⟩
  exact (pairwise_sort keys).imp fun before => precedes_iff.1 before

/-- Of two keys that first differ in a code point above `FFFF` and in `FFFD`, the one with the larger
code point comes first. -/
theorem perm_ordered_stable_sort_emoji :
    (∀ c ∈ ("k😀a" : Text), c.isSurrogate = false) ∧
      (∀ c ∈ ("k\ufffd" : Text), c.isSurrogate = false) ∧
      Text.Before "k😀a" "k\ufffd" ∧ Utf16.units "k😀a" < Utf16.units "k\ufffd" ∧
      (sort ["k\ufffd", "k😀a"]).Pairwise fun a b => Utf16.units a ≤ Utf16.units b := by
  have whole : ∀ c ∈ ("k😀a" : Text), c.isSurrogate = false := by decide
  have whole' : ∀ c ∈ ("k\ufffd" : Text), c.isSurrogate = false := by decide
  have before : Text.Before "k😀a" "k\ufffd" :=
    .inr ⟨"k", '😀', '\ufffd', "a", "", rfl, rfl, by decide⟩
  obtain ⟨-, ordered, -, -, ranked⟩ := perm_ordered_stable_sort ["k\ufffd", "k😀a"]
  exact ⟨whole, whole', before, (ranked _ _ whole whole').2 before, ordered⟩

/-- Keys that may stand on either side of each other are written with the same bytes. -/
theorem precedes_antisymm_iff {a b : Text} :
    (precedes a b = true ∧ precedes b a = true) ↔ Utf16.encode a = Utf16.encode b := by
  simp only [precedes, Bool.not_eq_true', decide_eq_false_iff_not, List.not_lt]
  constructor
  · rintro ⟨first, second⟩
    exact List.le_antisymm first second
  · intro same
    rw [same]
    exact ⟨List.le_refl _, List.le_refl _⟩

/-- Of keys without pairs each has a place of its own. -/
theorem eq_of_precedes {a b : Text} (ha : a.Unpaired) (hb : b.Unpaired) (hab : precedes a b = true)
    (hba : precedes b a = true) : a = b :=
  (Utf16.encode_inj ha hb).1 (precedes_antisymm_iff.1 ⟨hab, hba⟩)

/-- **Sorted keys do not depend on the order of the input.** Keys without pairs of surrogates are
sorted in one way, whatever order they come in, and so is the source that is made of them; and two
keys that stand on either side of each other are the same unless one has such a pair. -/
theorem sort_eq_of_perm :
    (∀ keys others : List Text, keys.Perm others → (∀ key ∈ keys, key.Unpaired) →
      sort keys = sort others ∧ ∀ typeName language,
        Source.ofKeys ((sort keys).map some) typeName language =
          Source.ofKeys ((sort others).map some) typeName language) ∧
    ∀ a b : Text, a ≠ b → precedes a b = true → precedes b a = true →
      ¬ a.Unpaired ∨ ¬ b.Unpaired := by
  constructor
  · intro keys others perm unpaired
    have same : sort keys = sort others := by
      have shuffled := ((sort_perm keys).trans perm).trans (sort_perm others).symm
      refine shuffled.eq_of_pairwise ?_ (pairwise_sort keys) (pairwise_sort others)
      intro a b first second
      refine eq_of_precedes (unpaired a ((sort_perm keys).mem_iff.1 first)) (unpaired b ?_)
      exact perm.mem_iff.2 ((sort_perm others).mem_iff.1 second)
    exact ⟨same, fun typeName language => by rw [same]⟩
  · intro a b differ hab hba
    by_contra both
    rw [not_or, not_not, not_not] at both
    exact differ (eq_of_precedes both.1 both.2 hab hba)

/-- Keys with surrogates and code points above `FFFF`, none of them with a pair. -/
def loneKeys : List Text :=
  [[⟨0xDE00, by decide⟩, ⟨0x1F600, by decide⟩], [⟨0xFFFF, by decide⟩],
    [⟨0x1F600, by decide⟩, ⟨0xD83D, by decide⟩]]

/-- The two halves of a code point, which are written with the same bytes as that one. -/
def halves : Text :=
  [⟨0xD83D, by decide⟩, ⟨0xDE00, by decide⟩]

theorem sort_eq_of_perm_loneKeys :
    loneKeys.Perm loneKeys.reverse ∧ (∀ key ∈ loneKeys, key.Unpaired) ∧
      sort loneKeys = sort loneKeys.reverse ∧
      halves ≠ [⟨0x1F600, by decide⟩] ∧ precedes halves [⟨0x1F600, by decide⟩] = true ∧
      precedes [⟨0x1F600, by decide⟩] halves = true ∧
      (¬ halves.Unpaired ∨ ¬ Text.Unpaired [⟨0x1F600, by decide⟩]) := by
  have perm : loneKeys.Perm loneKeys.reverse := (List.reverse_perm loneKeys).symm
  have unpaired : ∀ key ∈ loneKeys, key.Unpaired := by decide
  have differ : halves ≠ [⟨0x1F600, by decide⟩] := by decide
  have first : precedes halves [⟨0x1F600, by decide⟩] = true := by decide
  have second : precedes [⟨0x1F600, by decide⟩] halves = true := by decide
  exact ⟨perm, unpaired, (sort_eq_of_perm.1 _ _ perm unpaired).1, differ, first, second,
    sort_eq_of_perm.2 _ _ differ first second⟩

end DottedKeys.Key
