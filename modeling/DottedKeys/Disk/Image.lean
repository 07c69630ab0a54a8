import DottedKeys.Disk

/-!
# Images of a disk

A run looks only at the locations on the paths that it is given, so an image of a disk at these
locations serves as well as the disk. What the run did is then the difference of two images.
-/

namespace DottedKeys.Disk

/-- The locations that names lead to, one after the other. -/
def stepsFrom : (here : Location) → List FileName → List Location
  | _, [] => []
  | here, name :: rest => here.step name :: stepsFrom (here.step name) rest

/-- The locations on a path. -/
def locationsOn (p : Path) : List Location :=
  stepsFrom (top p) (p.names.map FileName.ofText)

/-- The entries of the second disk that the first does not have, the oldest first. -/
def changes (before after : Disk) : List (Location × Entry) :=
  (after.entries.filter fun entry => before.get? entry.1 ≠ some entry.2).reverse

end DottedKeys.Disk
