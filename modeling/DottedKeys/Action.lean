import DottedKeys.Event

/-!
# Actions

An action changes a disk, logs what it does, and may fail. What it did before it failed stays done.
What `load_keys`, `package` and `generate` do to the disk and to the log is an action.
-/

namespace DottedKeys

/-- What an action works on: the disk, and the log so far. -/
structure World where
  disk : Disk
  log : List Event

/-- An activity that works on a disk and may fail. -/
abbrev Action (α : Type) := ExceptT Failure (StateM World) α

namespace Action

/-- Log an event. -/
def report (e : Event) : Action Unit :=
  modify fun w => { w with log := w.log ++ [e] }

/-- The disk as it is. -/
def disk : Action Disk :=
  return (← get).disk

/-- Put another disk in place of the one there is. -/
def setDisk (d : Disk) : Action Unit :=
  modify fun w => { w with disk := d }

/-- Let an entry stand at a location. -/
def put (l : Location) (e : Entry) : Action Unit :=
  modify fun w => { w with disk := w.disk.put l e }

/-- The value of a computation that may fail. -/
def ofExcept {ε α : Type} (failure : ε → Failure) : Except ε α → Action α
  | .ok value => pure value
  | .error fault => throw (failure fault)

/-- What came of an action: its value or failure, the disk it left, and what it logged. -/
structure Outcome (α : Type) where
  result : Except Failure α
  disk : Disk
  log : List Event

/-- Do an action on a disk. -/
def perform {α : Type} (action : Action α) (d : Disk) : Outcome α :=
  let (result, world) := (action.run).run ⟨d, []⟩
  ⟨result, world.disk, world.log⟩

end Action

end DottedKeys
