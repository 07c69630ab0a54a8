import DottedKeys.Disk
import DottedKeys.Properties.Escape
import DottedKeys.Source.Render
import DottedKeys.Text.Codec

/-!
# Failures of a run

Every way in which a run can end early, with what is reported of it. A run that could not read its
properties may go on without them; a run that ends in another expected way reports why, and any
other failure is left to whoever started the run. `isRecoverable` tells what `load_keys` catches,
and `isExpected` what `main` does.
-/

namespace DottedKeys

/-- Why a type name is none. -/
inductive TypeNameFault where
  | empty
  | emptySegment (typeName : Text)
deriving DecidableEq

/-- Why a run ends early. -/
inductive Failure where
  | malformed (fault : Properties.Malformed)
  | encoding (fault : Encoding.Fault)
  | unknownEncoding (fault : Encoding.NameFault)
  | encodingName (flaw : NameFlaw)
  | memberName (flaw : NameFlaw)
  | source (fault : Source.Fault)
  | typeName (fault : TypeNameFault)
  | disk (fault : Disk.Fault)
deriving DecidableEq

/-- What is reported of a type name that is none. -/
def TypeNameFault.message : TypeNameFault → Text
  | empty => "type_name must not be empty"
  | emptySegment typeName => "type_name must not contain empty segments: " ++ typeName

namespace Failure

/-- What is reported of a failure. -/
def message : Failure → Text
  | malformed fault => fault.message
  | encoding .undecodable => "the bytes are no text in this encoding"
  | encoding .rejected => "the bytes are not to be had in this encoding"
  | unknownEncoding fault => fault.message
  | encodingName .unencodable => "surrogates not allowed"
  | encodingName .null => "embedded null character"
  | memberName .unencodable => "surrogates not allowed"
  | memberName .null => "embedded null character"
  | source fault => fault.message
  | typeName fault => fault.message
  | disk fault => fault.message

/-- A run goes on without the properties that this failure kept it from reading. -/
def isRecoverable : Failure → Bool
  | malformed _ => true
  | encoding fault => fault = .undecodable
  | disk fault => fault.isRefusal
  | _ => false

/-- The command line expects this failure and reports it. -/
def isExpected : Failure → Bool
  | malformed _ => true
  | source fault => fault ≠ .missingKey
  | disk fault => fault.isRefusal
  | _ => false

end Failure

end DottedKeys
