import DottedKeys.Disk.Path
import DottedKeys.Key
import DottedKeys.Source.Layout
import DottedKeys.Text.Codec
import DottedKeys.Text.Quoted

/-!
# The settings of a run

Options come as the user gave them; an option that is empty counts as not given. Settings are made
of them if the four that have no default are there, the class name has no empty segment, and the
encoding is known. The first of these that fails is reported. A text that cannot be the name of an
encoding at all fails in a way of its own. `ofOptions` is `from_namespace` of `GeneratorConfig`, and
`Required` lists `REQUIRED_OPTIONS`.
-/

namespace DottedKeys

/-- The options that have to be given, in the order in which they are missed. -/
inductive Required where
  | staging
  | className
  | properties
  | archive
deriving DecidableEq

/-- Why options make no settings. -/
inductive UsageFault where
  | missing (option : Required)
  | emptySegment (className : Text)
  | unknownEncoding (name : Text)
deriving DecidableEq

/-- What is reported of an option that is missed. -/
def Required.message : Required → Text
  | staging => "Please specify a temporary directory!"
  | className => "Please specify an output classname!"
  | properties => "Please specify an input properties file!"
  | archive => "Please specify an output zip file!"

/-- What is reported of options that make no settings. -/
def UsageFault.message : UsageFault → Text
  | missing option => option.message
  | emptySegment className => "Invalid classname " ++ className.quoted ++ ": empty name segment!"
  | unknownEncoding name => "Unknown properties encoding " ++ name.quoted ++ "!"

/-- Why there are no settings. -/
inductive ConfigFault where
  | usage (fault : UsageFault)
  | encodingName (flaw : NameFlaw)
deriving DecidableEq

/-- Options as they were given. -/
structure Options where
  archive : Option Text
  properties : Option Text
  className : Option Text
  staging : Option Text
  language : Option Text
  encoding : Option Text

/-- The settings of a run. -/
structure Config where
  archive : Text
  properties : Text
  typeName : Text
  staging : Text
  language : Text
  encoding : Text
deriving DecidableEq

namespace Config

/-- The encoding that is meant if none is named. -/
def defaultEncoding : Text := "iso-8859-1"

/-- An option that has to be there. -/
def require (option : Required) : Option Text → Except ConfigFault Text
  | some (c :: rest) => .ok (c :: rest)
  | _ => .error (.usage (.missing option))

/-- An option, or what is meant without it. -/
def orDefault (default : Text) : Option Text → Text
  | some (c :: rest) => c :: rest
  | _ => default

/-- A path as paths are written. -/
def normalize (path : Text) : Text :=
  (Path.parse path).text

section Codecs

variable [Codecs]

/-- An encoding whose name has to stand for a codec, be it one that makes text or not. -/
def checkEncoding (name : Text) : Except ConfigFault Unit :=
  match Encoding.nameFlaw? name, Codec.named? name with
  | some flaw, _ => .error (.encodingName flaw)
  | none, none => .error (.usage (.unknownEncoding name))
  | none, some _ => .ok ()

/-- The settings that options make. -/
def ofOptions (o : Options) : Except ConfigFault Config := do
  let staging ← require .staging o.staging
  let className ← require .className o.className
  let properties ← require .properties o.properties
  let archive ← require .archive o.archive
  if (className.splitOn Key.dot).any List.isEmpty then throw (.usage (.emptySegment className))
  let encoding := orDefault defaultEncoding o.encoding
  checkEncoding encoding
  return {
    archive := normalize archive
    properties := normalize properties
    typeName := className
    staging := normalize staging
    language := orDefault Source.defaultLanguage o.language
    encoding := encoding }

end Codecs

end Config

end DottedKeys
