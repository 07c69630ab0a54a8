import DottedKeys.Properties.Entry
import DottedKeys.Properties.Table

/-!
# Reading properties into a table

Entries are stored as they are read. A malformed escape ends the reading, and what was stored before
it stays: a reading is a table together with the fault that cut it short, if one did. `readInto` is
`parse_properties`, given a table to store into, and `read` the same with a table of its own.
-/

namespace DottedKeys.Properties

/-- How far a reading came. -/
structure Reading where
  table : Table
  fault : Option Malformed

/-- Store the entries of logical lines, up to the first that cannot be decoded. -/
def readLines (table : Table) : List Text → Reading
  | [] => ⟨table, none⟩
  | line :: rest =>
    match decodeEntry line with
    | .ok (key, value) => readLines (table.put key value) rest
    | .error fault => ⟨table, some fault⟩

/-- Read a text into a table. -/
def readInto (table : Table) (text : Text) : Reading :=
  readLines table (logicalLines text)

/-- Read a text into a table of its own. -/
def read (text : Text) : Reading :=
  readInto .empty text

/-- The table of a reading that came to the end. -/
def Reading.complete (r : Reading) : Except Malformed Table :=
  match r.fault with
  | none => .ok r.table
  | some fault => .error fault

/-- Lines in two parts are read one part after the other, the second only if the first was read to
its end. -/
theorem readLines_append (table : Table) (first second : List Text) :
    readLines table (first ++ second) =
      match (readLines table first).fault with
      | none => readLines (readLines table first).table second
      | some _ => readLines table first := by
  induction first generalizing table with
  | nil => rfl
  | cons line rest ih =>
    rw [List.cons_append, readLines, readLines]
    cases decodeEntry line with
    | ok entry => exact ih _
    | error fault => rfl

end DottedKeys.Properties
