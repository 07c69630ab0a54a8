import DottedKeys.Disk.Archive.Open
import DottedKeys.Disk.Name
import DottedKeys.Disk.Path
import DottedKeys.Text.Quoted

/-!
# The disk

A disk maps locations to directories, files and archives. Paths are walked name by name, through
directories only, and a name of two dots leads back. An operation that cannot be done says why, and
for which path; under a text that is no name it is not even tried. What an operation changes is said
through `get?`. The operations are those that `load_properties`, `stage_source` and `write_archive`
ask for.
-/

namespace DottedKeys

/-- A place on the disk: the names on the way from the root or from the working directory. What is
above the working directory is reached by names of two dots, which only stand first. -/
structure Location where
  absolute : Bool
  names : List FileName
deriving DecidableEq

namespace Location

/-- The name that leads back. -/
def back : FileName := .ofText ".."

/-- One name further, or one back. There is nothing above the root. -/
def step (l : Location) (name : FileName) : Location :=
  if name ≠ back then { l with names := l.names ++ [name] }
  else
    match l.names.getLast? with
    | none => if l.absolute then l else { l with names := [back] }
    | some last =>
      if last = back then { l with names := l.names ++ [back] }
      else { l with names := l.names.dropLast }

/-- The root, the working directory, and what is above it are directories that are always there. -/
def isTop (l : Location) : Bool :=
  l.names.all (· = back)

/-- Whether a location is below the working directory. -/
def isBelow (l : Location) : Bool :=
  !l.absolute && match l.names with
    | [] => false
    | first :: _ => first ≠ back

end Location

/-- The text of a location, as a path to it is written. -/
def Location.text (l : Location) : Text :=
  (if l.absolute then Anchor.root else Anchor.here).text ++
    [Path.slash].intercalate (l.names.map FileName.text)

/-- What stands at a location. -/
inductive Entry where
  | directory
  | file (contents : Bytes)
  | archive (members : List Member)
deriving DecidableEq

/-- The bytes of an entry that can be read. -/
def Entry.bytes? : Entry → Option Bytes
  | directory => none
  | file contents => some contents
  | archive members => some (Archive.container members)

/-- The members of an entry that is an archive, or a file that can be opened as one. -/
def Entry.members? : Entry → Option (List Member)
  | directory => none
  | file contents => Archive.open? contents
  | archive members => some members

/-- Everything that stands on a disk but for the directories that are always there. -/
structure Disk where
  entries : List (Location × Entry)

namespace Disk

/-- Why an operation cannot be done. -/
inductive Reason where
  | notFound
  | occupied
  | notDirectory
  | isDirectory
  | nameTooLong
deriving DecidableEq

/-- The number of a reason. -/
def Reason.code : Reason → Nat
  | notFound => 2
  | occupied => 17
  | notDirectory => 20
  | isDirectory => 21
  | nameTooLong => 36

/-- What is reported of a reason. -/
def Reason.text : Reason → Text
  | notFound => "No such file or directory"
  | occupied => "File exists"
  | notDirectory => "Not a directory"
  | isDirectory => "Is a directory"
  | nameTooLong => "File name too long"

/-- Why an operation was not done. -/
inductive Fault where
  /-- It cannot be done under the name that it was asked for under. -/
  | refused (reason : Reason) (name : Text)
  /-- It was asked for under what is no name, and was not even tried. -/
  | flawed (flaw : NameFlaw)
deriving DecidableEq

/-- What is reported of a fault. -/
def Fault.message : Fault → Text
  | refused reason name =>
    "[Errno " ++ Text.ofNat reason.code ++ "] " ++ reason.text ++ ": " ++ name.quoted
  | flawed .unencodable => "surrogates not allowed"
  | flawed .null => "embedded null byte"

/-- Whether the operation was tried. -/
def Fault.isRefusal : Fault → Bool
  | refused .. => true
  | flawed _ => false

/-- The disk with nothing on it. -/
def empty : Disk := ⟨[]⟩

/-- What stands at a location, if anything does. -/
def get? (d : Disk) (l : Location) : Option Entry :=
  if l.isTop then some .directory else d.entries.lookup l

/-- Let an entry stand at a location, whatever stood there before. -/
def put (d : Disk) (l : Location) (e : Entry) : Disk :=
  ⟨(l, e) :: d.entries.filter fun entry => !decide (entry.1 = l)⟩

/-- The directory that a path starts from. -/
def top (p : Path) : Location :=
  ⟨p.anchor ≠ .here, []⟩

/-- Walk names from a directory. All but the last have to be directories. -/
def walk (d : Disk) : (here : Location) → List FileName → Except Reason Location
  | here, [] => .ok here
  | here, name :: rest =>
    if FileName.longest < name.length then .error .nameTooLong
    else if rest = [] then .ok (here.step name)
    else
      match d.get? (here.step name) with
      | some .directory => walk d (here.step name) rest
      | some _ => .error .notDirectory
      | none => .error .notFound

/-- The most bytes that the text of a path may have. -/
def longestPath : Nat := 4095

/-- Whether the text of a path has too many bytes to be walked at all. -/
def isTooLong (text : Text) : Bool :=
  longestPath < (FileName.ofText text).length

/-- The location that a path leads to. -/
def locate (d : Disk) (p : Path) : Except Reason Location :=
  if isTooLong p.text then .error .nameTooLong
  else d.walk (top p) (p.names.map FileName.ofText)

/-- What a path leads to. -/
def find (d : Disk) (p : Path) : Except Reason Entry := do
  let l ← d.locate p
  match d.get? l with
  | some e => .ok e
  | none => .error .notFound

/-- Whether a path leads to a directory. -/
def isDirectory (d : Disk) (p : Path) : Bool :=
  match d.find p with
  | .ok .directory => true
  | _ => false

/-- The bytes of the file or archive that a path leads to. -/
def read (d : Disk) (p : Path) : Except Fault Bytes :=
  match FileName.flaw? p.text, d.find p with
  | some flaw, _ => .error (.flawed flaw)
  | none, .error reason => .error (.refused reason p.text)
  | none, .ok e =>
    match e.bytes? with
    | some bytes => .ok bytes
    | none => .error (.refused .isDirectory p.text)

/-- The location of a file that is about to be written. There need be none yet, but the directory
has to be there. -/
def place (d : Disk) (p : Path) : Except Reason Location := do
  let l ← d.locate p
  match d.get? l with
  | some .directory => .error .isDirectory
  | _ => .ok l

/-- Write a file. -/
def write (d : Disk) (p : Path) (contents : Bytes) : Except Fault Disk :=
  match FileName.flaw? p.text, d.place p with
  | some flaw, _ => .error (.flawed flaw)
  | none, .ok l => .ok (d.put l (.file contents))
  | none, .error reason => .error (.refused reason p.text)

/-- Why nothing can be written under a path that has to lead to a directory. -/
def refusal (d : Disk) (p : Path) : Reason :=
  match d.find p with
  | .ok .directory => .isDirectory
  | .ok _ => .notDirectory
  | .error reason => reason

/-- The location of a file that is about to be written, by a name as the user gave it. The empty
name leads nowhere. A name that ends in a slash, or whose last part is a single dot, can only be
that of a directory; under the dot, the directory has to be there. -/
def placeNamed (d : Disk) (name : Text) : Except Fault Location :=
  match FileName.flaw? name with
  | some flaw => .error (.flawed flaw)
  | none =>
    let p := Path.parse name
    let found :=
      if name.isEmpty then .error .notFound
      else if isTooLong name then .error .nameTooLong
      else if Path.endsInDot name then .error (d.refusal p)
      else if name.getLast? = some Path.slash then .error (d.refusal p.parent)
      else d.place p
    found.mapError fun reason => .refused reason name

/-- Make a directory in one that is there. -/
def makeDirectory (d : Disk) (p : Path) : Except Reason Disk := do
  let l ← d.locate p
  match d.get? l with
  | some _ => .error .occupied
  | none => .ok (d.put l .directory)

/-- Storing at one location changes no other. -/
theorem get?_put (d : Disk) (l other : Location) (e : Entry) (h : l.isTop = false) :
    (d.put l e).get? other = if other = l then some e else d.get? other := by
  by_cases same : other = l
  · simp [get?, put, same, h]
  · have others (entries : List (Location × Entry)) :
        (entries.filter fun entry => !decide (entry.1 = l)).lookup other = entries.lookup other := by
      induction entries with
      | nil => rfl
      | cons entry rest ih =>
        by_cases here : entry.1 = l
        · have apart : (other == entry.1) = false := by simp [here, same]
          rw [List.filter_cons_of_neg (by simp [here]), List.lookup_cons, apart, ih]
        · rw [List.filter_cons_of_pos (by simp [here]), List.lookup_cons, List.lookup_cons, ih]
    have first : (other == l) = false := by simp [same]
    simp only [get?, put, same, if_false, List.lookup_cons, first, others]

end Disk

end DottedKeys
