import DottedKeys.Config
import DottedKeys.Package
import DottedKeys.Properties.Reading

/-!
# Generating source from properties

The keys of a properties file are sorted, built into a tree, rendered and packaged. A file that
cannot be read to its end counts with the keys that were read, which is logged. An encoding has to
have a name before the file is opened, and to be known, as one that makes text, once it is open.
`loadProperties` is `load_properties`, `loadKeys` is `load_keys`, and a run is one of `generate`.
-/

namespace DottedKeys.Generate

variable [Codecs]

/-- What was read of a properties file, and what kept the rest from being read. -/
structure Loaded where
  table : Properties.Table
  failure : Option Failure

/-- The text of a file in an encoding given by name. -/
def readText (file encoding : Text) (d : Disk) : Except Failure Text :=
  match Encoding.nameFlaw? encoding, d.read (.parse file), Codec.decoder encoding with
  | some flaw, _, _ => .error (.encodingName flaw)
  | none, .error fault, _ => .error (.disk fault)
  | none, .ok _, .error fault => .error (.unknownEncoding fault)
  | none, .ok bytes, .ok decode => (decode bytes).mapError .encoding

/-- Read a properties file. -/
def load (file encoding : Text) (d : Disk) : Loaded :=
  match readText file encoding d with
  | .error failure => ⟨.empty, some failure⟩
  | .ok text =>
    let reading := Properties.read text
    ⟨reading.table, reading.fault.map .malformed⟩

/-- The properties of a file that is read to its end. -/
def loadProperties (file encoding : Text) : Action Properties.Table := do
  let loaded := load file encoding (← Action.disk)
  match loaded.failure with
  | none => return loaded.table
  | some failure => throw failure

/-- The sorted keys of a file, as far as it can be read. -/
def loadKeys (file encoding : Text) : Action (List Text) := do
  let loaded := load file encoding (← Action.disk)
  let keys := Key.sort loaded.table.keys
  match loaded.failure with
  | none => pure ()
  | some failure =>
    if failure.isRecoverable then Action.report (.unread file loaded.table.keys.length failure)
    else throw failure
  Action.report (.loaded file keys.length)
  return keys

/-- The whole run: the answer is the path of the source inside the archive. -/
def generate (c : Config) : Action Text := do
  let layout ← Action.ofExcept .source (Source.layoutOf c.language)
  let keys ← loadKeys c.properties c.encoding
  let contents ← Action.ofExcept .source (Source.render layout (Group.ofKeys keys) c.typeName)
  Package.package c.staging c.archive c.typeName contents layout.suffix

/-- The paths that a run with these settings looks at. -/
def pathsOf (c : Config) : List Path :=
  let staged := do
    let layout ← Source.layout? c.language
    let entry ← (Package.entryName c.typeName layout.suffix).toOption
    return Package.stagedPath c.staging entry
  [Path.parse c.properties, Path.parse c.archive] ++ staged.toList

end DottedKeys.Generate
