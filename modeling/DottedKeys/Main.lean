import DottedKeys.CommandLine
import DottedKeys.Disk.Image

/-!
# The program

The program takes an image of the disk at the locations that its arguments name, runs on the image,
and carries out what the run changed.
-/

namespace DottedKeys.Program

/-- What stands at a location of the real disk. -/
def probe (l : Location) : IO (Option Entry) := do
  try
    let contents ← IO.FS.readBinFile l.text.toString
    return some (.file contents.toList)
  catch
    | .noFileOrDirectory .. => return none
    | .inappropriateType .. => return some .directory
    | error => throw error

/-- The image of the real disk at some locations. -/
def image (locations : List Location) : IO Disk :=
  locations.foldlM (fun d l => return ((← probe l).map (d.put l)).getD d) Disk.empty

/-- Let an entry stand at a location of the real disk. -/
def establish (change : Location × Entry) : IO Unit :=
  let name := change.1.text.toString
  match change.2 with
  | .directory => IO.FS.createDir name
  | .file contents => IO.FS.writeBinFile name contents.toByteArray
  | .archive members => IO.FS.writeBinFile name (Archive.container members).toByteArray

/-- Run the program on the real disk. -/
def run (arguments : List String) : IO UInt32 := do
  let words := arguments.map Text.ofString
  let before ← image ((CommandLine.pathsOf words).flatMap Disk.locationsOn).eraseDups
  let finish := CommandLine.run words before
  (before.changes finish.disk).forM establish
  IO.print finish.output.toString
  IO.eprint finish.messages.toString
  match finish.status with
  | .ok status => return .ofNat status
  | .error failure =>
    IO.eprintln failure.message.toString
    return 1

end DottedKeys.Program

/-- The entry point. -/
def main (arguments : List String) : IO UInt32 :=
  DottedKeys.Program.run arguments
