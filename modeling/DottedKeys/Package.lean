import DottedKeys.Key
import DottedKeys.Stream
import DottedKeys.Action

/-!
# Packaging

The source of a type is written below a staging directory, at the path that the type name spells,
and copied into an archive of its own, in which it has the same path. The type name is looked at
before anything is written. `entryName` is `entry_name`, `stage` is `stage_source`, `writeArchive`
is `write_archive`, and `package` calls them in this order.
-/

namespace DottedKeys.Package

/-- The path of the source of a type inside an archive. -/
def entryName (typeName suffix : Text) : Except TypeNameFault Text :=
  if typeName.isEmpty then .error .empty
  else
    let segments := typeName.splitOn Key.dot
    if segments.any List.isEmpty then .error (.emptySegment typeName)
    else .ok ((Path.ofTexts segments).text ++ suffix)

/-- Make a directory, or find it there. -/
def settle (p : Path) : Action Unit := do
  let d ← Action.disk
  match d.makeDirectory p with
  | .ok d => Action.setDisk d
  | .error reason =>
    unless reason ≠ .notFound && d.isDirectory p do throw (.disk (.refused reason p.text))

/-- Make a directory with those above it, as far as they are missing. The names on the way to it
come in reverse. -/
def settleFrom (anchor : Anchor) : (reversed : List Text) → Action Unit
  | [] => settle ⟨anchor, []⟩
  | name :: above => do
    let p : Path := ⟨anchor, (name :: above).reverse⟩
    match (← Action.disk).makeDirectory p with
    | .error .notFound => do
      settleFrom anchor above
      settle p
    | _ => settle p

/-- Make the directories of a path, as far as they are missing. -/
def makeDirectories (p : Path) : Action Unit :=
  match FileName.flaw? p.text with
  | some flaw => throw (.disk (.flawed flaw))
  | none => settleFrom p.anchor p.names.reverse

/-- Where the source for an entry is staged. -/
def stagedPath (staging entry : Text) : Path :=
  (Path.parse staging).join (Path.parse entry)

/-- Write source below the staging directory. -/
def stage (staging entry contents : Text) : Action Path := do
  let file := stagedPath staging entry
  makeDirectories file.parent
  let d ← Action.disk
  Action.setDisk (← Action.ofExcept .disk (d.write file (Utf8.encode contents)))
  Action.report (.staged file.text)
  return file

/-- Write an archive that holds a staged file as its only member; the answer is the number of bytes
copied. The archive is truncated first, and left empty if the staged file cannot be read or the
member cannot be named. -/
def writeArchive (archive : Text) (staged : Path) (entry : Text) : Action Nat := do
  let l ← Action.ofExcept .disk ((← Action.disk).placeNamed archive)
  Action.put l (.file [])
  let name := Archive.memberName entry
  match (← Action.disk).read staged, Archive.nameFlaw? name with
  | .error fault, _ => do
    Action.put l (.archive [])
    throw (.disk fault)
  | .ok _, some flaw => do
    Action.put l (.archive [])
    throw (.memberName flaw)
  | .ok contents, none => do
    let copied := Stream.transfer Stream.bufferSize ⟨[contents]⟩
    Action.put l (.archive [⟨name, Archive.deflated, copied.written⟩])
    Action.report (.archived copied.count entry)
    return copied.count

/-- Stage the source of a type and archive it; the answer is the path inside the archive. -/
def package (staging archive typeName contents suffix : Text) : Action Text := do
  let entry ← Action.ofExcept .typeName (entryName typeName suffix)
  let staged ← stage staging entry contents
  let _ ← writeArchive archive staged entry
  Action.report (.wrote entry archive)
  return entry

end DottedKeys.Package
