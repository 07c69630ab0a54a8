import DottedKeys.Key

/-!
# Groups of keys

Dotted keys form a tree. A group holds the last names of the keys that share its path, and the
groups of the longer paths; both stand in the order in which they came. A group is addressed by the
places of the children on the way to it. Groups are the nodes of `NamespaceNode`, with its
`is_root`, `full_key`, `find_child`, `walk` and `iter_keys`.
-/

namespace DottedKeys

/-- A group: the dotted path to it, the last name on that path, the fields held here, and the groups
below. Both texts are empty for the root. -/
structure Group where
  qualifier : Text
  name : Text
  fields : List Text
  children : List Group

namespace Group

/-- A group with a given path that holds nothing yet. -/
def fresh (names : List Text) (name : Text) : Group :=
  ⟨Key.join names, name, [], []⟩

/-- The root of a tree that holds nothing yet. -/
def empty : Group := ⟨[], [], [], []⟩

/-- A group without a path of its own is written out as the root is. -/
def isRoot (g : Group) : Bool :=
  g.qualifier.isEmpty

/-- The whole key of a field held by this group. -/
def fullKey (g : Group) (field : Text) : Text :=
  if g.isRoot then field else g.qualifier ++ Key.dot :: field

/-- Hold one more field. -/
def addField (field : Text) (g : Group) : Group :=
  { g with fields := g.fields ++ [field] }

/-- Hold one more group, after the others. -/
def addChild (g child : Group) : Group :=
  { g with children := g.children ++ [child] }

mutual

/-- This group and those below it, each before its children. -/
def walk : Group → List Group
  | ⟨qualifier, name, fields, children⟩ =>
    ⟨qualifier, name, fields, children⟩ :: walkAll children

/-- The groups of several trees, one tree after the other. -/
def walkAll : List Group → List Group
  | [] => []
  | g :: rest => walk g ++ walkAll rest

end

/-- The whole keys of the fields held here and below. -/
def keys (g : Group) : List Text :=
  g.walk.flatMap fun node => node.fields.map node.fullKey

/-- The place of a group in a tree: which child to go to, from the root on. -/
abbrev Place := List Nat

/-- The group at a place. -/
def get? (g : Group) : Place → Option Group
  | [] => some g
  | i :: rest => g.children[i]?.bind (·.get? rest)

/-- Change the group at a place. -/
def modifyAt (change : Group → Group) : Place → Group → Group
  | [], g => change g
  | i :: rest, g => { g with children := g.children.modify i (modifyAt change rest) }

/-- The last of some groups with a given name, between those before and those after it. -/
def lastNamed? (name : Text) : List Group → Option (List Group × Group × List Group)
  | [] => none
  | g :: rest =>
    match lastNamed? name rest with
    | some (before, found, after) => some (g :: before, found, after)
    | none => if g.name = name then some ([], g, rest) else none

/-- The place of the last child with a given name. -/
def find? (g : Group) (name : Text) : Option Nat :=
  (lastNamed? name g.children).map (·.1.length)

theorem walk_eq (g : Group) : g.walk = g :: walkAll g.children := by
  cases g
  rw [walk]

theorem walkAll_append (first second : List Group) :
    walkAll (first ++ second) = walkAll first ++ walkAll second := by
  induction first with
  | nil => simp [walkAll]
  | cons g rest ih => simp [walkAll, ih]

/-- What is found has the name, and the groups around it are the others in their order. -/
theorem eq_of_lastNamed? {name : Text} {groups before after : List Group} {found : Group}
    (h : lastNamed? name groups = some (before, found, after)) :
    groups = before ++ found :: after ∧ found.name = name ∧ ∀ g ∈ after, g.name ≠ name := by
  suffices main : (∀ before found after, lastNamed? name groups = some (before, found, after) →
      groups = before ++ found :: after ∧ found.name = name ∧ ∀ g ∈ after, g.name ≠ name) ∧
      (lastNamed? name groups = none → ∀ g ∈ groups, g.name ≠ name) from main.1 _ _ _ h
  clear h
  induction groups with
  | nil => simp [lastNamed?]
  | cons g rest ih =>
    rw [lastNamed?]
    cases last : lastNamed? name rest with
    | some parts =>
      obtain ⟨pre, inner, post⟩ := parts
      obtain ⟨split, named, later⟩ := ih.1 pre inner post last
      refine ⟨?_, by simp⟩
      rintro before found after same
      obtain ⟨rfl, rfl, rfl⟩ := by simpa using same
      exact ⟨by simp [split], named, later⟩
    | none =>
      have absent := ih.2 last
      by_cases here : g.name = name
      · refine ⟨?_, by simp [here]⟩
        rintro before found after same
        obtain ⟨rfl, rfl, rfl⟩ := by simpa [here] using same
        exact ⟨rfl, here, absent⟩
      · simpa [here] using absent

/-- Nothing is found exactly if no group has the name. -/
theorem lastNamed?_eq_none_iff {name : Text} {groups : List Group} :
    lastNamed? name groups = none ↔ ∀ g ∈ groups, g.name ≠ name := by
  induction groups with
  | nil => simp [lastNamed?]
  | cons g rest ih =>
    rw [lastNamed?]
    cases last : lastNamed? name rest with
    | some parts =>
      have present : ¬ ∀ g ∈ rest, g.name ≠ name := by simp [← ih, last]
      simpa using fun _ => by simpa using present
    | none =>
      have absent := ih.1 last
      by_cases here : g.name = name <;> simp_all

end Group

end DottedKeys
