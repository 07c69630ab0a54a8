import DottedKeys.Proofs.Group.Shape
import Mathlib.Data.List.Nodup

/-!
# Groups by their paths

The groups of a tree are found by the names on the way to them. In a tree of keys no two groups are
found by the same names, and `shape_ofKeys` says which names lead to a group and what stands there.
-/

namespace DottedKeys.Group

/-- What holds of a group whenever it holds of its children holds of every group. -/
theorem byChildren {Holds : Group → Prop}
    (step : ∀ g, (∀ child ∈ g.children, Holds child) → Holds g) (g : Group) : Holds g := by
  refine step g fun child member => byChildren step child
termination_by sizeOf g
decreasing_by
  have smaller := List.sizeOf_lt_of_mem member
  cases g
  simp only [mk.sizeOf_spec] at smaller ⊢
  omega

/-- A group of a tree with the names on the way to it. -/
inductive Reaches : Group → (path : List Text) → Group → Prop where
  | here (g : Group) : Reaches g [] g
  | through {g child node : Group} {path : List Text} (member : child ∈ g.children)
      (inside : Reaches child path node) : Reaches g (child.name :: path) node

section Reaches

variable {g node : Group} {done path : List Text}

theorem reaches_nil_iff : Reaches g [] node ↔ node = g := by
  constructor
  · intro reached
    cases reached
    rfl
  · rintro rfl
    exact .here node

theorem reaches_cons_iff {name : Text} :
    Reaches g (name :: path) node ↔
      ∃ child ∈ g.children, child.name = name ∧ Reaches child path node := by
  constructor
  · intro reached
    generalize whole : name :: path = names at reached
    cases reached with
    | here => contradiction
    | @through _ child _ rest member inside =>
      obtain ⟨rfl, rfl⟩ := List.cons.inj whole
      exact ⟨child, member, rfl, inside⟩
  · rintro ⟨child, member, rfl, inside⟩
    exact .through member inside

theorem mem_walkAll {groups : List Group} : node ∈ walkAll groups ↔ ∃ g ∈ groups, node ∈ g.walk := by
  induction groups with
  | nil => simp [walkAll]
  | cons g rest ih => simp [walkAll, ih]

/-- A walk meets the groups that names lead to, and no others. -/
theorem mem_walk_iff : node ∈ g.walk ↔ ∃ path, Reaches g path node := by
  constructor
  · intro met
    induction g using byChildren with
    | step g ih =>
      rw [walk_eq, List.mem_cons, mem_walkAll] at met
      rcases met with rfl | ⟨child, member, below⟩
      · exact ⟨[], .here node⟩
      · obtain ⟨path, inside⟩ := ih child member below
        exact ⟨child.name :: path, .through member inside⟩
  · rintro ⟨path, reached⟩
    induction reached with
    | here g => simp [walk_eq]
    | @through g child node path member inside ih =>
      rw [walk_eq]
      exact List.mem_cons_of_mem _ (mem_walkAll.2 ⟨child, member, ih⟩)

/-- What is handed down from a group to its children holds of every group that names lead to. -/
theorem Reaches.handed {Holds : List Text → Group → Prop}
    (down : ∀ {path g}, Holds path g → ∀ child ∈ g.children, Holds (path ++ [child.name]) child)
    (reached : Reaches g path node) (h : Holds done g) : Holds (done ++ path) node := by
  induction reached generalizing done with
  | here g => rwa [List.append_nil]
  | @through g child node path member inside ih =>
    have below := ih (down h child member)
    rwa [List.append_assoc] at below

/-- A group is called what the last name on the way to it is. -/
theorem Reaches.name (reached : Reaches g path node) :
    ∀ last ∈ path.getLast?, node.name = last := by
  induction reached with
  | here g => simp
  | @through g child node path member inside ih =>
    intro last ends
    cases path with
    | nil =>
      rw [reaches_nil_iff.1 inside]
      simpa using ends
    | cons name path => exact ih last (by simpa using ends)

end Reaches

/-! ## Trees of keys -/

section Shaped

variable {keys : List Text} {g node other : Group} {done path : List Text}

/-- Names lead to a group exactly if there are none or a key goes on with them. -/
theorem Shaped.reaches_iff (h : Shaped keys done g) :
    (∃ node, Reaches g path node) ↔
      path = [] ∨ ∃ key ∈ keys, done ++ path <+: Key.path key := by
  induction path generalizing done g with
  | nil => simp [reaches_nil_iff]
  | cons name path ih =>
    have along : done ++ name :: path = (done ++ [name]) ++ path := by simp
    simp only [reaches_cons_iff, reduceCtorEq, false_or]
    constructor
    · rintro ⟨node, child, member, rfl, inside⟩
      rcases (ih (h.child child member)).1 ⟨node, inside⟩ with rfl | ⟨key, given, passes⟩
      · exact h.mem_names.1 (List.mem_map_of_mem member)
      · exact ⟨key, given, along ▸ passes⟩
    · rintro ⟨key, given, passes⟩
      rw [along] at passes
      have next : name ∈ g.children.map (·.name) :=
        h.mem_names.2 ⟨key, given, (List.prefix_append _ _).trans passes⟩
      obtain ⟨child, member, rfl⟩ := List.mem_map.1 next
      obtain ⟨node, inside⟩ := (ih (h.child child member)).2 (.inr ⟨key, given, passes⟩)
      exact ⟨node, child, member, rfl, inside⟩

/-- Names lead to one group at most. -/
theorem Shaped.unique (h : Shaped keys done g) (first : Reaches g path node)
    (second : Reaches g path other) : other = node := by
  induction path generalizing done g with
  | nil => rw [reaches_nil_iff.1 first, reaches_nil_iff.1 second]
  | cons name path ih =>
    obtain ⟨child, member, named, inside⟩ := reaches_cons_iff.1 first
    obtain ⟨child', member', named', inside'⟩ := reaches_cons_iff.1 second
    have same : child' = child :=
      List.inj_on_of_nodup_map h.nodup member' member (named'.trans named.symm)
    rw [same] at inside'
    exact ih (h.child child member) inside inside'

end Shaped

/-- The place of the first key that goes through a path. -/
def firstThrough (keys : List Text) (path : List Text) : Nat :=
  keys.findIdx fun key => decide (path <+: Key.path key)

/-- What stands at a path in the tree of some keys. -/
structure StandsAt (keys : List Text) (path : List Text) (node : Group) : Prop where
  qualifier : node.qualifier = Key.join path
  name : ∀ last ∈ path.getLast?, node.name = last
  fields : node.fields = (keys.filter (Key.path · = path)).map Key.field
  nodup : (node.children.map (·.name)).Nodup
  order : (node.children.map (·.name)).Pairwise fun a b =>
    firstThrough keys (path ++ [a]) < firstThrough keys (path ++ [b])

/-- Children stand in the order in which keys first go through them. -/
theorem Shaped.order {keys : List Text} {g : Group} {path : List Text} (h : Shaped keys path g) :
    (g.children.map (·.name)).Pairwise fun a b =>
      firstThrough keys (path ++ [a]) < firstThrough keys (path ++ [b]) := by
  have first_seen : ∀ name, firstThrough keys (path ++ [name]) =
      keys.findIdx fun key => nextName path key == some name := by
    intro name
    rw [firstThrough]
    congr 1
    funext key
    rw [Bool.eq_iff_iff, decide_eq_true_eq, beq_iff_eq, nextName_eq_some_iff]
  cases h with
  | intro fields names inside =>
    rw [names]
    simp only [first_seen]
    exact FirstSeen.pairwise_eraseDups (nextName path) keys

/-- **The shape of a tree of keys.** Its groups are those that names lead to, which are the names of
paths that keys go through and no others; different names lead to different groups, and the keys
alone say what stands there. -/
theorem shape_ofKeys (keys : List Text) :
    (∀ node, node ∈ (ofKeys keys).walk ↔ ∃ path, Reaches (ofKeys keys) path node) ∧
      (∀ path, (∃ node, Reaches (ofKeys keys) path node) ↔
        path = [] ∨ ∃ key ∈ keys, path <+: Key.path key) ∧
      ∀ path node, Reaches (ofKeys keys) path node →
        StandsAt keys path node ∧ ∀ other, Reaches (ofKeys keys) path other → other = node := by
  have shaped := shaped_ofKeys keys
  refine ⟨fun _ => mem_walk_iff, fun _ => shaped.reaches_iff, fun path node reached => ?_⟩
  have own := reached.handed Qualified.child (qualified_ofKeys keys)
  have here := reached.handed Shaped.child shaped
  refine ⟨⟨own.own, reached.name, ?_, here.nodup, here.order⟩, fun other => shaped.unique reached⟩
  cases here with
  | intro fields names inside => exact fields

end DottedKeys.Group
