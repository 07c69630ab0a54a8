import DottedKeys.Proofs.Group.Reach
import DottedKeys.Proofs.Key.Order

/-!
# Trees of sorted keys

The groups and fields of a tree stand in the order in which keys first lead to them. If the keys are
sorted, fields are sorted too (`fields_sorted`), but groups are only in the order of their names with
a dot behind them (`names_dotted`): there a name comes after its continuations with something below
the dot. `names_ofKeys_sort` says so of the groups below the root, and `sorted_ofKeys_sort` says where
groups are sorted by their names alone.
-/

namespace DottedKeys

/-! ## Names and dots -/

namespace Utf16

/-- The unit of a dot. -/
def dotUnit : UInt16 := 0x2E

theorem units_dot_cons (rest : Text) : units (Key.dot :: rest) = dotUnit :: units rest :=
  units_cons Key.dot rest

theorem dotUnit_not_mem_units {name : Text} (undotted : Key.dot ∉ name) : dotUnit ∉ units name := by
  have value : dotUnit.toNat = 0x2E := by decide
  intro inside
  rcases mem_units inside with ⟨c, member, same⟩ | high
  · have is_dot : c = Key.dot := CodePoint.eq_of_val_eq (same.trans value)
    exact undotted (is_dot ▸ member)
  · omega

/-- The units of code points above a dot are above its unit. -/
theorem dotUnit_lt_of_mem_units {name : Text} (above : ∀ c ∈ name, 0x2F ≤ c.val) {u : UInt16}
    (member : u ∈ units name) : dotUnit < u := by
  have value : dotUnit.toNat = 0x2E := by decide
  rw [UInt16.lt_iff_toNat_lt, value]
  rcases mem_units member with ⟨c, inside, same⟩ | high
  · have large := above c inside
    omega
  · omega

end Utf16

/-- A text without surrogates has no pair of them. -/
theorem Text.Unpaired.of_whole {t : Text} (whole : ∀ c ∈ t, c.isSurrogate = false) : t.Unpaired := by
  apply List.Pairwise.isChain
  apply List.pairwise_of_forall_mem_list
  intro c inside d _ pair
  have high := CodePoint.isHigh_iff.1 pair.1
  have surrogate : c.isSurrogate = true := by
    simp only [CodePoint.isSurrogate, Bool.and_eq_true, decide_eq_true_eq]
    omega
  rw [whole c inside] at surrogate
  contradiction

namespace Group

open Utf16 (units dotUnit)

/-! ## Fields -/

section Sorted

variable {keys path : List Text} {node : Group}

/-- The fields of a group are sorted if its keys are and have no empty names. -/
theorem fields_sorted (sorted : keys.Pairwise fun a b => Key.precedes a b = true)
    (solid : ∀ key ∈ keys, [] ∉ key.splitOn Key.dot) (reached : Reaches (ofKeys keys) path node) :
    node.fields.Pairwise fun a b => units a ≤ units b := by
  obtain ⟨lead, spelled⟩ := Key.exists_join_concat path
  have whole : ∀ key ∈ keys, Key.path key = path → key = lead ++ Key.field key := by
    intro key given ends
    rw [← spelled, ← ends, ← Key.splitOn_eq_path_field (solid key given), Key.join_splitOn]
  rw [(reached.handed Shaped.child (shaped_ofKeys keys)).fields, fieldsAt, List.pairwise_map]
  apply (sorted.filter _).imp_of_mem
  intro a b first second before
  obtain ⟨given, ends⟩ := List.mem_filter.1 first
  obtain ⟨given', ends'⟩ := List.mem_filter.1 second
  rw [Key.precedes_iff, whole a given (of_decide_eq_true ends),
    whole b given' (of_decide_eq_true ends'), Utf16.units_append, Utf16.units_append,
    Utf16.append_le_append_iff] at before
  exact before

/-! ## Groups -/

/-- Where paths are first gone through one after the other, so are keys that go through them. -/
theorem precedes_of_firstThrough {other : List Text}
    (sorted : keys.Pairwise fun a b => Key.precedes a b = true)
    (known : ∃ key ∈ keys, path <+: Key.path key) (known' : ∃ key ∈ keys, other <+: Key.path key)
    (before : firstThrough keys path < firstThrough keys other) :
    ∃ a b, path <+: Key.path a ∧ other <+: Key.path b ∧ Key.precedes a b = true := by
  have through : ∀ p : List Text, (∃ key ∈ keys, p <+: Key.path key) →
      ∃ inside : firstThrough keys p < keys.length, p <+: Key.path keys[firstThrough keys p] := by
    rintro p ⟨key, given, passes⟩
    have inside : firstThrough keys p < keys.length :=
      List.findIdx_lt_length_of_exists ⟨key, given, by simpa using passes⟩
    have found := List.findIdx_getElem (w := inside)
    exact ⟨inside, of_decide_eq_true found⟩
  obtain ⟨inside, passes⟩ := through path known
  obtain ⟨inside', passes'⟩ := through other known'
  exact ⟨_, _, passes, passes', List.pairwise_iff_getElem.1 sorted _ _ inside inside' before⟩

/-- The groups below a group of sorted keys are in the order of their names with a dot behind. -/
theorem names_dotted (sorted : keys.Pairwise fun a b => Key.precedes a b = true)
    (reached : Reaches (ofKeys keys) path node) :
    (node.children.map (·.name)).Pairwise fun a b =>
      units (a ++ [Key.dot]) ≤ units (b ++ [Key.dot]) := by
  have shaped : Shaped keys path node := reached.handed Shaped.child (shaped_ofKeys keys)
  have undotted : ∀ {name : Text} {key : Text}, path ++ [name] <+: Key.path key → Key.dot ∉ name :=
    fun passes => Key.dot_not_mem_of_mem_path (passes.subset (by simp))
  obtain ⟨lead, spelled⟩ := Key.exists_join_concat path
  apply shaped.order.imp_of_mem
  intro a b first second before
  obtain ⟨key, other, passes, passes', ordered⟩ :=
    precedes_of_firstThrough sorted (shaped.mem_names.1 first) (shaped.mem_names.1 second) before
  obtain ⟨rest, rfl⟩ := Key.exists_eq_of_prefix_path (by simp) passes
  obtain ⟨more, rfl⟩ := Key.exists_eq_of_prefix_path (by simp) passes'
  -- Behind what both keys start with stand the two names, each with its dot.
  rw [Key.precedes_iff, spelled, spelled] at ordered
  simp only [List.append_assoc, Utf16.units_append, Utf16.append_le_append_iff,
    Utf16.units_dot_cons] at ordered ⊢
  exact Utf16.le_of_marked (Utf16.dotUnit_not_mem_units (undotted passes))
    (Utf16.dotUnit_not_mem_units (undotted passes')) ordered

/-- Groups are sorted by their names where no name holds anything below the dot or a surrogate. -/
theorem names_sorted (sorted : keys.Pairwise fun a b => Key.precedes a b = true)
    (clean : ∀ key ∈ keys, ∀ name ∈ Key.path key, ∀ c ∈ name,
      0x2F ≤ c.val ∧ c.isSurrogate = false) (reached : Reaches (ofKeys keys) path node) :
    (node.children.map (·.name)).Pairwise fun a b => units a < units b := by
  have shaped : Shaped keys path node := reached.handed Shaped.child (shaped_ofKeys keys)
  have clean_name : ∀ name ∈ node.children.map (·.name), ∀ c ∈ name,
      0x2F ≤ c.val ∧ c.isSurrogate = false := by
    intro name member
    obtain ⟨key, given, passes⟩ := shaped.mem_names.1 member
    exact clean key given name (passes.subset (by simp))
  have unpaired : ∀ name ∈ node.children.map (·.name), name.Unpaired := fun name member =>
    .of_whole fun c inside => (clean_name name member c inside).2
  apply ((names_dotted sorted reached).and shaped.nodup).imp_of_mem
  rintro a b first second ⟨dotted, differ⟩
  rw [Utf16.units_append, Utf16.units_append, Utf16.units_dot_cons] at dotted
  rcases Utf16.le_or_continued_of_le dotted with ordered | ⟨u, rest, continued, below⟩
  · apply List.not_le.1
    intro back
    have same := List.le_antisymm ordered back
    exact differ ((Utf16.units_inj (unpaired a first) (unpaired b second)).1 same)
  · have member : u ∈ units a := by simp [continued]
    have above := Utf16.dotUnit_lt_of_mem_units (fun c inside => (clean_name a first c inside).1) member
    exact absurd below (UInt16.lt_asymm above)

end Sorted

/-! ## Trees of keys that are sorted first -/

/-- **The order of the groups below the root.** In a tree of sorted keys these groups are in ascending
order of their names with a dot behind. The names by themselves are in ascending order too, but for
two of which the first goes on from the second with something below the dot. -/
theorem names_ofKeys_sort (keys : List Text) :
    ((ofKeys (Key.sort keys)).children.map (·.name)).Pairwise fun a b =>
      units (a ++ [Key.dot]) ≤ units (b ++ [Key.dot]) ∧
        (units a ≤ units b ∨ ∃ u rest, units a = units b ++ u :: rest ∧ u < dotUnit) := by
  apply (names_dotted (Key.pairwise_sort keys) (.here _)).imp
  intro a b dotted
  have marked : units a ++ [dotUnit] ≤ units b ++ [dotUnit] := by
    rw [Utf16.units_append, Utf16.units_append] at dotted
    exact dotted
  exact ⟨dotted, Utf16.le_or_continued_of_le marked⟩

/-- Sorted keys of two groups, the name of one being that of the other with a hyphen and more. -/
def hyphenKeys : List Text :=
  ["web-admin.port", "web.port"]

/-- A hyphen comes before the dot, so groups are not always in the order of their names. -/
theorem not_names_sorted :
    ¬ ∀ keys : List Text, ((ofKeys (Key.sort keys)).children.map (·.name)).Pairwise fun a b =>
      units a ≤ units b := by
  intro ascending
  have in_order : Key.sort hyphenKeys = hyphenKeys :=
    List.mergeSort_of_pairwise (by decide +kernel)
  have names : (ofKeys hyphenKeys).children.map (·.name) = [("web-admin" : Text), "web"] := by
    decide +kernel
  have sorted := ascending hyphenKeys
  rw [in_order, names] at sorted
  exact absurd sorted (by decide +kernel)

/-- **The order inside every group.** In a tree of sorted keys without empty names the fields of every
group are in ascending order. If moreover no name holds anything below the slash or a surrogate, so
are the groups below every group, no two of them alike. -/
theorem sorted_ofKeys_sort {keys : List Text} (solid : ∀ key ∈ keys, [] ∉ key.splitOn Key.dot) :
    (∀ node ∈ (ofKeys (Key.sort keys)).walk, node.fields.Pairwise fun a b => units a ≤ units b) ∧
    ((∀ key ∈ keys, ∀ name ∈ key.splitOn Key.dot, ∀ c ∈ name, 0x2F ≤ c.val ∧ c.isSurrogate = false) →
      ∀ node ∈ (ofKeys (Key.sort keys)).walk,
        (node.children.map (·.name)).Pairwise fun a b => units a < units b) := by
  have given : ∀ key ∈ Key.sort keys, key ∈ keys := fun key => (Key.sort_perm keys).mem_iff.1
  constructor
  · intro node met
    obtain ⟨path, reached⟩ := mem_walk_iff.1 met
    exact fields_sorted (Key.pairwise_sort keys) (fun key inside => solid key (given key inside)) reached
  · intro clean node met
    obtain ⟨path, reached⟩ := mem_walk_iff.1 met
    refine names_sorted (Key.pairwise_sort keys) (fun key inside name passed => ?_) reached
    apply clean key (given key inside) name
    rw [Key.splitOn_eq_path_field (solid key (given key inside))]
    exact List.mem_append_left _ passed

/-- Keys in no order, with names that go on from others with a slash and with a code point that is
written with two units. -/
def slashKeys : List Text :=
  ["web.port", "web/x.y.port", "web/x.y/z.host", "web.host", "web😀.a", "b"]

theorem sorted_ofKeys_sort_slashKeys :
    (∀ key ∈ slashKeys, [] ∉ key.splitOn Key.dot) ∧
      (∀ key ∈ slashKeys, ∀ name ∈ key.splitOn Key.dot, ∀ c ∈ name,
        0x2F ≤ c.val ∧ c.isSurrogate = false) ∧
      ∀ node ∈ (ofKeys (Key.sort slashKeys)).walk,
        node.fields.Pairwise (fun a b => units a ≤ units b) ∧
          (node.children.map (·.name)).Pairwise fun a b => units a < units b := by
  have solid : ∀ key ∈ slashKeys, [] ∉ key.splitOn Key.dot := by decide +kernel
  have clean : ∀ key ∈ slashKeys, ∀ name ∈ key.splitOn Key.dot, ∀ c ∈ name,
      0x2F ≤ c.val ∧ c.isSurrogate = false := by decide +kernel
  obtain ⟨fields, groups⟩ := sorted_ofKeys_sort solid
  exact ⟨solid, clean, fun node met => ⟨fields node met, groups clean node met⟩⟩

end Group

end DottedKeys
