import DottedKeys.Group

/-!
# Building a tree of groups

A path is followed name by name, always into the last child of that name; where there is none, a new
child is added at the end. `graft` changes the group that a path leads to and makes what is missing
on the way, and `trail` says at which place that group then stands. Following a path is the loop of
`resolve_chain`, and the node that it returns is known by its place; `insert` is `insert_key`, and
`ofKeys` is `build_tree`.
-/

namespace DottedKeys.Group

/-- Change the group that the names `todo` lead to, where `done` are the names already followed. A
group made on the way has the names followed so far for its path. -/
def graft (change : Group → Group) : (done todo : List Text) → Group → Group
  | _, [], g => change g
  | done, name :: todo, g =>
    match lastNamed? name g.children with
    | some (before, child, after) =>
      { g with children := before ++ graft change (done ++ [name]) todo child :: after }
    | none =>
      let made := fresh (done ++ [name]) name
      g.addChild (graft change (done ++ [name]) todo made)

/-- The place that names lead to once the missing groups are made. -/
def trail : (todo : List Text) → Group → Place
  | [], _ => []
  | name :: todo, g =>
    match lastNamed? name g.children with
    | some (before, child, _) => before.length :: trail todo child
    | none => g.children.length :: trail todo empty

/-- Make the groups of a dotted path below this group, as far as they are missing. -/
def resolve (path : Text) (g : Group) : Group :=
  graft id [] (Key.segments path) g

/-- Make the groups of a dotted path below the group at a place. -/
def resolveAt (start : Place) (path : Text) (root : Group) : Group :=
  modifyAt (resolve path) start root

/-- The place of the group that `resolveAt` makes or finds. -/
def placeOf (start : Place) (path : Text) (root : Group) : Place :=
  start ++ ((root.get? start).map (trail (Key.segments path))).getD []

/-- Hold a key: its last name becomes a field of the group that its path leads to. -/
def insert (key : Text) (root : Group) : Group :=
  graft (addField (Key.field key)) [] (Key.path key) root

/-- The place of the group that holds a key. -/
def homeOf (key : Text) (root : Group) : Place :=
  trail (Key.path key) root

/-- The tree of some keys, inserted in their order. -/
def ofKeys (keys : List Text) : Group :=
  keys.foldl (fun root key => root.insert key) empty

end DottedKeys.Group
