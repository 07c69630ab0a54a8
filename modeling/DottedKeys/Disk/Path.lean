import DottedKeys.Text

/-!
# Paths

A path is read from text by its slashes alone: empty names and single dots do not count, and nothing
is looked up. Two dots are a name like any other here. A path that starts at a root replaces what it
is joined to. `from_namespace` makes paths of its options, `entry_name` joins the segments of a type
name, and `stage_source` joins the entry to the staging directory.
-/

namespace DottedKeys

/-- Where a path starts: in the working directory, at the root, or at the root that exactly two
slashes name. -/
inductive Anchor where
  | here
  | root
  | secondRoot
deriving DecidableEq

/-- The slashes of an anchor. -/
def Anchor.text : Anchor → Text
  | here => []
  | root => "/"
  | secondRoot => "//"

/-- A path: where it starts, and the names on it. -/
structure Path where
  anchor : Anchor
  names : List Text
deriving DecidableEq

namespace Path

/-- What parts the names of a path. -/
def slash : CodePoint := '/'

/-- The anchor of a text. Two slashes at its start are an anchor of their own, three or more are the
root. -/
def anchorOf (t : Text) : Anchor :=
  match (t.takeWhile (· == slash)).length with
  | 0 => .here
  | 2 => .secondRoot
  | _ => .root

/-- A name that leads nowhere: the empty one, and the single dot. -/
def isIdle (name : Text) : Bool :=
  name.isEmpty || name = "."

/-- Whether the last part of a text, empty ones apart, is a single dot. -/
def endsInDot (t : Text) : Bool :=
  ((t.splitOn slash).filter (!·.isEmpty)).getLast? = some "."

/-- The path of a text. -/
def parse (t : Text) : Path :=
  ⟨anchorOf t, (t.splitOn slash).filter (!isIdle ·)⟩

/-- The text of a path. The path without names in the working directory is a single dot. -/
def text (p : Path) : Text :=
  if p.anchor = .here && p.names.isEmpty then "."
  else p.anchor.text ++ [slash].intercalate p.names

/-- A path followed from the end of another. -/
def join (p q : Path) : Path :=
  if q.anchor = .here then ⟨p.anchor, p.names ++ q.names⟩ else q

/-- The path of several texts, each joined to those before it. -/
def ofTexts (parts : List Text) : Path :=
  parts.foldl (fun p part => p.join (parse part)) ⟨.here, []⟩

/-- The path without its last name. -/
def parent (p : Path) : Path :=
  ⟨p.anchor, p.names.dropLast⟩

end Path

end DottedKeys
