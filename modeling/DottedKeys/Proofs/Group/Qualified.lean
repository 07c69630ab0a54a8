import DottedKeys.Proofs.Group.Frame
import DottedKeys.Proofs.Key.Path

/-!
# Qualifiers and paths

In a tree that grows from the empty root the qualifier of every group is the dotted form of the
names on the way to it. `Qualified` says so of a tree, and `qualified_graft` that insertion keeps
it. An inserted key therefore comes back in its normal form, with no other key lost or changed:
`keys_graft` for one insertion, `keys_ofKeys_perm` for a list of keys.
-/

namespace DottedKeys.Group

/-- Every group of a tree is qualified by the path to it, `path` being the path to its root. -/
inductive Qualified : (path : List Text) → Group → Prop where
  | intro {path : List Text} {g : Group} (own : g.qualifier = Key.join path)
      (below : ∀ child ∈ g.children, Qualified (path ++ [child.name]) child) : Qualified path g

theorem Qualified.own {path : List Text} {g : Group} (h : Qualified path g) :
    g.qualifier = Key.join path := by
  cases h with
  | intro own below => exact own

theorem Qualified.child {path : List Text} {g : Group} (h : Qualified path g) :
    ∀ child ∈ g.children, Qualified (path ++ [child.name]) child := by
  cases h with
  | intro own below => exact below

theorem qualified_fresh (names : List Text) (name : Text) : Qualified names (fresh names name) :=
  .intro rfl (by simp [fresh])

/-- A group at a place is qualified by the names on the way there. -/
theorem Qualified.get? {path : List Text} {g node : Group} {place : Place} (h : Qualified path g)
    (there : g.get? place = some node) : Qualified (path ++ g.namesTo place) node := by
  induction place generalizing path g with
  | nil =>
    obtain rfl := Option.some.inj there
    rwa [namesTo, List.append_nil]
  | cons i place ih =>
    rw [get?_cons] at there
    obtain ⟨child, found, inside⟩ := Option.bind_eq_some_iff.1 there
    have below := ih (h.child child (List.mem_of_getElem? found)) inside
    rwa [List.append_assoc, List.singleton_append, ← namesTo_cons found] at below

section Graft

variable {change : Group → Group} {done todo : List Text} {name : Text} {g : Group}

/-- Insertion keeps every group qualified by its path. -/
theorem qualified_graft (keeps : KeepsPlace change) (h : Qualified done g) :
    Qualified done (graft change done todo g) := by
  induction todo generalizing done g with
  | nil =>
    rw [graft]
    exact .intro ((keeps.qualifier g).trans h.own) (by rw [keeps.children]; exact h.child)
  | cons name todo ih =>
    obtain ⟨before, child, after, enters, grafted, -⟩ := exists_enters done name g
    have entered : Qualified (done ++ [name]) child := by
      cases enters with
      | found parted named last =>
        rw [← named]
        exact h.child child (by simp [parted])
      | made absent => exact qualified_fresh _ name
    rw [grafted]
    refine .intro h.own fun other member => ?_
    rcases List.mem_append.1 member with earlier | here
    · exact h.child other (enters.mem (.inl earlier))
    · rcases List.mem_cons.1 here with rfl | later
      · rw [name_graft keeps, enters.named]
        exact ih entered
      · exact h.child other (enters.mem (.inr later))

end Graft

/-! ## Keys -/

/-- The keys of a qualified group are those of its path. -/
theorem Qualified.fullKey {path : List Text} {g : Group} (h : Qualified path g) (field : Text) :
    g.fullKey field = Key.qualify path field := by
  rw [Group.fullKey, isRoot, Key.qualify, h.own]

/-- A field that is added at a path adds the key of the path and the field, and the other keys keep
their order. -/
theorem keys_graft (field : Text) (todo : List Text) {done : List Text} {g : Group}
    (h : Qualified done g) :
    ∃ before after, g.keys = before ++ after ∧
      (graft (addField field) done todo g).keys =
        before ++ Key.qualify (done ++ todo) field :: after := by
  obtain ⟨home, before, after, there, old, new⟩ := keys_graft_trail field done todo g
  have keeps := keepsPlace_addField field
  have grown : Qualified done (graft (addField field) done todo g) := qualified_graft keeps h
  have own := grown.get? there
  rw [namesTo_trail keeps] at own
  exact ⟨before, after, old, by rw [new, own.fullKey]⟩

/-! ## Trees of keys -/

theorem ofKeys_concat (keys : List Text) (key : Text) :
    ofKeys (keys ++ [key]) = (ofKeys keys).insert key := by
  simp [ofKeys, List.foldl_append]

theorem qualified_ofKeys (keys : List Text) : Qualified [] (ofKeys keys) := by
  induction keys using List.reverseRecOn with
  | nil => exact .intro rfl (by simp [ofKeys, empty])
  | append_singleton keys key ih =>
    rw [ofKeys_concat]
    exact qualified_graft (keepsPlace_addField _) ih

/-- The root has no name. -/
theorem name_ofKeys (keys : List Text) : (ofKeys keys).name = [] := by
  induction keys using List.reverseRecOn with
  | nil => rfl
  | append_singleton keys key ih =>
    rw [ofKeys_concat, insert, name_graft (keepsPlace_addField _), ih]

/-- A tree of keys holds their normal forms, each as often as it was given. -/
theorem keys_ofKeys (keys : List Text) : (ofKeys keys).keys.Perm (keys.map Key.normal) := by
  induction keys using List.reverseRecOn with
  | nil => exact .refl _
  | append_singleton keys key ih =>
    obtain ⟨before, after, old, new⟩ :=
      keys_graft (Key.field key) (Key.path key) (qualified_ofKeys keys)
    rw [List.nil_append, Key.qualify_path_field] at new
    rw [ofKeys_concat, insert, new, List.map_append, List.map_singleton]
    apply List.perm_middle.trans
    rw [← old]
    exact (List.Perm.cons _ ih).trans (List.perm_append_singleton _ _).symm

/-- **No key is lost.** A tree of keys holds exactly their normal forms, each as often as it was
given; where all keys are clear, it holds the keys as they were given. -/
theorem keys_ofKeys_perm (keys : List Text) :
    (ofKeys keys).keys.Perm (keys.map Key.normal) ∧
      ((∀ key ∈ keys, Key.Clear key) → (ofKeys keys).keys.Perm keys) := by
  constructor
  · exact keys_ofKeys keys
  intro clear
  have same : keys.map Key.normal = keys := by
    rw [List.map_congr_left fun key member => Key.normal_eq_self (clear key member), List.map_id']
  have held := keys_ofKeys keys
  rwa [same] at held

/-- Keys in no order, one of them given twice, one with a doubled and one with a leading dot. -/
theorem keys_ofKeys_perm_repeated :
    (∀ key ∈ ["b.c", "a", "b.c", "a..b.x", ".d.e"].map Text.ofString, Key.Clear key) ∧
      (ofKeys (["b.c", "a", "b.c", "a..b.x", ".d.e"].map Text.ofString)).keys.Perm
        (["b.c", "a", "b.c", "a..b.x", ".d.e"].map Text.ofString) := by
  have clear : ∀ key ∈ ["b.c", "a", "b.c", "a..b.x", ".d.e"].map Text.ofString, Key.Clear key := by
    decide +kernel
  exact ⟨clear, (keys_ofKeys_perm _).2 clear⟩

end DottedKeys.Group
