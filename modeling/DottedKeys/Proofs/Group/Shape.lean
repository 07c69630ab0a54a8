import DottedKeys.Proofs.FirstSeen
import DottedKeys.Proofs.Group.Qualified

/-!
# The shape of a tree of keys

The tree of some keys has a group for each path that a key goes through, with the fields of the
keys that end there. `Shaped` describes every group of a tree by the keys alone. One more key
changes the groups on its path and no others: `Shaped.hold`, `Shaped.replace` and `Shaped.add` are
the ways in which it does, and `shaped_graft` puts them together along the path.
-/

namespace DottedKeys.Group

/-- The name with which a key goes on behind a path, if it goes through that path and on. -/
def nextName (path : List Text) (key : Text) : Option Text :=
  if path <+: Key.path key then (Key.path key)[path.length]? else none

/-- The fields of the keys that end at a path, as often as they were given. -/
def fieldsAt (keys path : List Text) : List Text :=
  (keys.filter (Key.path · = path)).map Key.field

/-- The names with which keys go on behind a path, in the order in which they were first given. -/
def namesAt (keys path : List Text) : List Text :=
  (keys.filterMap (nextName path)).eraseDups

/-- What a group of a tree holds if the tree is that of some keys and `path` leads to the group. -/
inductive Shaped (keys : List Text) : (path : List Text) → Group → Prop where
  | intro {path : List Text} {g : Group} (fields : g.fields = fieldsAt keys path)
      (names : g.children.map (·.name) = namesAt keys path)
      (inside : ∀ child ∈ g.children, Shaped keys (path ++ [child.name]) child) :
      Shaped keys path g

/-! ## Names on a path -/

theorem nextName_eq_some_iff {path : List Text} {key name : Text} :
    nextName path key = some name ↔ path ++ [name] <+: Key.path key := by
  unfold nextName
  constructor
  · intro found
    split at found
    next passes =>
      obtain ⟨rest, whole⟩ := passes
      rw [← whole, List.getElem?_append_right (Nat.le_refl _), Nat.sub_self] at found
      cases rest with
      | nil => simp at found
      | cons first rest =>
        have same : first = name := by simpa using found
        exact ⟨rest, by rw [← whole, same, List.append_assoc]; rfl⟩
    next => contradiction
  · rintro ⟨rest, whole⟩
    have passes : path <+: Key.path key := ⟨name :: rest, by rw [← whole, List.append_assoc]; rfl⟩
    rw [if_pos passes, ← whole, List.append_assoc,
      List.getElem?_append_right (Nat.le_refl _), Nat.sub_self]
    rfl

theorem nextName_eq_none {path : List Text} {key : Text} (elsewhere : ¬ path <+: Key.path key) :
    nextName path key = none := by
  rw [nextName, if_neg elsewhere]

/-- A key does not go on behind its own path. -/
theorem nextName_path (key : Text) : nextName (Key.path key) key = none := by
  rw [nextName, if_pos (List.prefix_refl _), List.getElem?_length]

/-- A key that goes on behind a path does not end there. -/
theorem path_ne_of_nextName {path : List Text} {key name : Text}
    (next : nextName path key = some name) : Key.path key ≠ path := by
  rintro rfl
  rw [nextName_path] at next
  contradiction

section Concat

variable {keys path : List Text} {key name : Text}

theorem fieldsAt_concat_of_ne (other : Key.path key ≠ path) :
    fieldsAt (keys ++ [key]) path = fieldsAt keys path := by
  unfold fieldsAt
  rw [List.filter_append]
  simp [other]

theorem fieldsAt_concat_path :
    fieldsAt (keys ++ [key]) (Key.path key) = fieldsAt keys (Key.path key) ++ [Key.field key] := by
  unfold fieldsAt
  rw [List.filter_append, List.map_append]
  simp

theorem namesAt_concat_of_none (ends : nextName path key = none) :
    namesAt (keys ++ [key]) path = namesAt keys path := by
  unfold namesAt
  rw [List.filterMap_append]
  simp [ends]

theorem mem_namesAt : name ∈ namesAt keys path ↔ ∃ key ∈ keys, path ++ [name] <+: Key.path key := by
  rw [namesAt, List.mem_eraseDups, List.mem_filterMap]
  simp only [nextName_eq_some_iff]

theorem namesAt_concat_of_mem (next : nextName path key = some name)
    (known : name ∈ namesAt keys path) : namesAt (keys ++ [key]) path = namesAt keys path := by
  have last : [key].filterMap (nextName path) = [name] := by simp [next]
  unfold namesAt at known ⊢
  rw [List.filterMap_append, last]
  exact FirstSeen.eraseDups_concat_of_mem (List.mem_eraseDups.1 known)

theorem namesAt_concat_of_not_mem (next : nextName path key = some name)
    (new : name ∉ namesAt keys path) :
    namesAt (keys ++ [key]) path = namesAt keys path ++ [name] := by
  have last : [key].filterMap (nextName path) = [name] := by simp [next]
  unfold namesAt at new ⊢
  rw [List.filterMap_append, last]
  exact FirstSeen.eraseDups_concat_of_not_mem (mt List.mem_eraseDups.2 new)

end Concat

/-! ## One more key -/

section Insert

variable {keys path : List Text} {key : Text} {g : Group}

namespace Shaped

theorem child (h : Shaped keys path g) :
    ∀ child ∈ g.children, Shaped keys (path ++ [child.name]) child := by
  cases h with
  | intro fields names inside => exact inside

theorem fields (h : Shaped keys path g) : g.fields = fieldsAt keys path := by
  cases h with
  | intro fields names inside => exact fields

theorem nodup (h : Shaped keys path g) : (g.children.map (·.name)).Nodup := by
  cases h with
  | intro fields names inside =>
    rw [names]
    exact FirstSeen.nodup_eraseDups _

/-- A group has a child for each name with which a key goes on. -/
theorem mem_names (h : Shaped keys path g) {name : Text} :
    name ∈ g.children.map (·.name) ↔ ∃ key ∈ keys, path ++ [name] <+: Key.path key := by
  cases h with
  | intro fields names inside => rw [names, mem_namesAt]

/-- The fields of a group are those of the keys that end there. -/
theorem mem_fields (h : Shaped keys path g) {field : Text} :
    field ∈ g.fields ↔ ∃ key ∈ keys, Key.path key = path ∧ Key.field key = field := by
  rw [h.fields, fieldsAt, List.mem_map]
  simp only [List.mem_filter, decide_eq_true_eq, and_assoc]

/-- A key changes nothing where its path does not go. -/
theorem elsewhere (h : Shaped keys path g) (apart : ¬ path <+: Key.path key) :
    Shaped (keys ++ [key]) path g := by
  induction h with
  | @intro path g fields names inside ih =>
    have other : Key.path key ≠ path := by
      rintro rfl
      exact apart (List.prefix_refl _)
    constructor
    · rw [fieldsAt_concat_of_ne other, fields]
    · rw [namesAt_concat_of_none (nextName_eq_none apart), names]
    · intro child member
      apply ih child member
      intro passes
      exact apart ((List.prefix_append path [child.name]).trans passes)

/-- A key changes nothing in a child whose name it does not go on with. -/
theorem sibling {name : Text} {other : Group} (h : Shaped keys (path ++ [other.name]) other)
    (next : nextName path key = some name) (different : other.name ≠ name) :
    Shaped (keys ++ [key]) (path ++ [other.name]) other := by
  apply h.elsewhere
  intro passes
  exact different (Option.some.inj ((nextName_eq_some_iff.2 passes).symm.trans next))

/-- A key becomes a field of the group of its path. -/
theorem hold (h : Shaped keys (Key.path key) g) :
    Shaped (keys ++ [key]) (Key.path key) (addField (Key.field key) g) := by
  cases h with
  | intro fields names inside =>
    constructor
    · rw [fieldsAt_concat_path, ← fields]
      rfl
    · rw [namesAt_concat_of_none (nextName_path key), ← names]
      rfl
    · intro child member
      apply (inside child member).elsewhere
      intro passes
      have shorter := passes.length_le
      rw [List.length_append, List.length_singleton] at shorter
      omega

/-- A key that goes on with the name of a child changes that child. -/
theorem replace {before after : List Group} {child grown : Group} (h : Shaped keys path g)
    (parted : g.children = before ++ child :: after) (named : grown.name = child.name)
    (next : nextName path key = some child.name)
    (entered : Shaped (keys ++ [key]) (path ++ [child.name]) grown) :
    Shaped (keys ++ [key]) path { g with children := before ++ grown :: after } := by
  have unique := h.nodup
  rw [parted, List.map_append, List.map_cons, List.nodup_append, List.nodup_cons] at unique
  obtain ⟨-, ⟨later, -⟩, earlier⟩ := unique
  cases h with
  | intro fields names inside =>
    rw [parted] at inside names
    constructor
    · rw [fieldsAt_concat_of_ne (path_ne_of_nextName next)]
      exact fields
    · have known : child.name ∈ namesAt keys path := by
        rw [← names]
        simp
      rw [namesAt_concat_of_mem next known, ← names]
      simp [named]
    · intro other member
      rcases List.mem_append.1 member with member | member
      · have different : other.name ≠ child.name :=
          earlier _ (List.mem_map_of_mem member) _ List.mem_cons_self
        exact (inside other (by simp [member])).sibling next different
      · rcases List.mem_cons.1 member with rfl | member
        · rwa [named]
        · have different : other.name ≠ child.name := by
            intro same
            exact later (same ▸ List.mem_map_of_mem member)
          exact (inside other (by simp [member])).sibling next different

/-- A key that goes on with a new name adds a child. -/
theorem add {made : Group} {name : Text} (h : Shaped keys path g) (named : made.name = name)
    (absent : name ∉ g.children.map (·.name)) (next : nextName path key = some name)
    (entered : Shaped (keys ++ [key]) (path ++ [name]) made) :
    Shaped (keys ++ [key]) path (g.addChild made) := by
  subst named
  cases h with
  | intro fields names inside =>
    constructor
    · rw [fieldsAt_concat_of_ne (path_ne_of_nextName next)]
      exact fields
    · rw [names] at absent
      rw [namesAt_concat_of_not_mem next absent, ← names]
      simp [addChild]
    · intro other member
      rcases List.mem_append.1 member with member | member
      · have different : other.name ≠ made.name := by
          intro same
          exact absent (same ▸ List.mem_map_of_mem member)
        exact (inside other member).sibling next different
      · rw [List.mem_singleton.1 member]
        exact entered

end Shaped

/-- No key has been seen where none goes. -/
theorem shaped_fresh {names : List Text} {name : Text}
    (unseen : ∀ key ∈ keys, ¬ names <+: Key.path key) : Shaped keys names (fresh names name) := by
  have no_fields : keys.filter (Key.path · = names) = [] := by
    apply List.filter_eq_nil_iff.2
    intro key member
    have apart := unseen key member
    simp only [decide_eq_true_eq]
    rintro rfl
    exact apart (List.prefix_refl _)
  have no_names : keys.filterMap (nextName names) = [] :=
    List.filterMap_eq_nil_iff.2 fun key member => nextName_eq_none (unseen key member)
  constructor
  · rw [fieldsAt, no_fields]
    rfl
  · rw [namesAt, no_names]
    rfl
  · simp [fresh]

/-- A key that is inserted below a group of a tree of keys makes it that of one more key. -/
theorem shaped_graft {done todo : List Text} (h : Shaped keys done g)
    (whole : Key.path key = done ++ todo) :
    Shaped (keys ++ [key]) done (graft (addField (Key.field key)) done todo g) := by
  have keeps := keepsPlace_addField (Key.field key)
  -- The names already followed grow by those still to be followed, so both and the group vary.
  induction todo generalizing done g with
  | nil =>
    rw [List.append_nil] at whole
    subst whole
    exact h.hold
  | cons name todo ih =>
    have next : nextName done key = some name :=
      nextName_eq_some_iff.2 ⟨todo, by rw [whole, List.append_assoc]; rfl⟩
    have entered : Key.path key = (done ++ [name]) ++ todo := by
      rw [whole, List.append_assoc]
      rfl
    cases search : lastNamed? name g.children with
    | some parts =>
      obtain ⟨before, child, after⟩ := parts
      obtain ⟨parted, rfl, -⟩ := eq_of_lastNamed? search
      have member : child ∈ g.children := by simp [parted]
      rw [graft_found search]
      exact h.replace parted (name_graft keeps) next (ih (h.child child member) entered)
    | none =>
      have absent : name ∉ g.children.map (·.name) := by
        simpa using lastNamed?_eq_none_iff.1 search
      have unseen : ∀ key ∈ keys, ¬ done ++ [name] <+: Key.path key := by
        intro other given passes
        exact absent (h.mem_names.2 ⟨other, given, passes⟩)
      rw [graft_missing search]
      exact h.add (name_graft keeps) absent next (ih (shaped_fresh unseen) entered)

end Insert

/-- The tree of some keys is shaped by them. -/
theorem shaped_ofKeys (keys : List Text) : Shaped keys [] (ofKeys keys) := by
  induction keys using List.reverseRecOn with
  | nil => exact .intro rfl rfl (by simp [ofKeys, empty])
  | append_singleton keys key ih =>
    rw [ofKeys_concat]
    exact shaped_graft ih rfl

end DottedKeys.Group
