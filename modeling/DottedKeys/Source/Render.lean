import DottedKeys.Group.Insert
import DottedKeys.Source.Layout
import DottedKeys.Text.Quoted

/-!
# Source of a tree

The members of a group are its fields and then its groups. Every group that is not the root is
declared around its members, the first of which names the path of the group. The order is the same
in all languages; a language in which members can hide each other refuses a group where one would.
`check` is `check_group`, `renderGroup` is `render_group` and `render` the `render` of a `Renderer`;
`ofKeys` is `generate_source`, with the gaps that `build_tree` refuses.
-/

namespace DottedKeys.Source

/-- Why there is no source. -/
inductive Fault where
  /-- No layout goes by this name. -/
  | unknownLanguage (name : Text)
  /-- A list of keys has a gap. -/
  | missingKey
  /-- The constant of this key would be hidden by another member of its group. -/
  | collision (key : Text)
deriving DecidableEq

/-- What is reported of a fault. -/
def Fault.message : Fault → Text
  | unknownLanguage name => "unknown target language: " ++ name
  | missingKey => "keys must not be None"
  | collision key =>
    "key " ++ key.quoted ++ " collides with a nested group or _ROOT of the same name"

/-- The names that fields of a group must keep clear of where members can hide each other. -/
def takenNames (g : Group) : List Text :=
  (if g.isRoot then [] else [rootConstant]) ++ g.children.map (·.name)

/-- The first field of a group that another member would hide. -/
def hiddenField? (l : Layout) (g : Group) : Option Text :=
  if l.shadows then g.fields.find? (takenNames g).contains else none

/-- Refuse a group in which a member would be hidden. -/
def check (l : Layout) (g : Group) : Except Fault Unit :=
  match hiddenField? l g with
  | some field => .error (.collision (g.fullKey field))
  | none => .ok ()

/-- The indentation of a level; levels below zero have none. -/
def indentation (l : Layout) (level : Int) : Text :=
  (List.replicate level.toNat l.indent).flatten

/-- What stands before the fields of a group. -/
def opening (l : Layout) (level : Int) (g : Group) : Text :=
  if g.isRoot then []
  else
    indentation l level ++ l.opening g.name ++
      indentation l (level + 1) ++ l.constant rootConstant g.qualifier

/-- The declarations of the fields of a group. -/
def constants (l : Layout) (level : Int) (g : Group) : Text :=
  g.fields.flatMap fun field =>
    indentation l (level + 1) ++ l.constant field (g.fullKey field)

/-- What stands behind the members of a group. -/
def closing (l : Layout) (level : Int) (g : Group) : Text :=
  if g.isRoot || l.closing.isEmpty then [] else indentation l level ++ l.closing

mutual

/-- The declaration of a group whose own line is indented by `level`. -/
def renderGroup (l : Layout) (level : Int) : Group → Except Fault Text
  | ⟨qualifier, name, fields, children⟩ => do
    let g : Group := ⟨qualifier, name, fields, children⟩
    check l g
    let inner ← renderAll l (level + 1) children
    return opening l level g ++ constants l level g ++ inner ++ closing l level g

/-- The declarations of groups, one after the other. -/
def renderAll (l : Layout) (level : Int) : List Group → Except Fault Text
  | [] => .ok []
  | g :: rest => do
    let first ← renderGroup l level g
    let more ← renderAll l level rest
    return first ++ more

end

/-- The source file for a tree and the qualified name of its type. -/
def render (l : Layout) (root : Group) (typeName : Text) : Except Fault Text := do
  let body ← renderGroup l 0 root
  let (package, simpleName) := Key.splitQualified typeName
  return l.file package simpleName body

/-- The layout of a language that has to be known. -/
def layoutOf (language : Text) : Except Fault Layout :=
  match layout? language with
  | some l => .ok l
  | none => .error (.unknownLanguage language)

/-- Keys without a gap. -/
def present (keys : List (Option Text)) : Except Fault (List Text) :=
  match keys.mapM id with
  | some keys => .ok keys
  | none => .error .missingKey

/-- The source file for keys that may have gaps, in a language given by name. -/
def ofKeys (keys : List (Option Text)) (typeName language : Text) : Except Fault Text := do
  let l ← layoutOf language
  render l (Group.ofKeys (← present keys)) typeName

end DottedKeys.Source
