import DottedKeys.Text.Encoding
import DottedKeys.Text.Flaw

/-!
# Codecs by name

An encoding is asked for by name, and names are compared by their letters, digits and dots, without
regard to case; whatever else stands in a name only parts these. A name can stand for an encoding of
this library, for one that the surroundings bring along, or for a transformation, from which no text
is to be had. What the surroundings bring along is a parameter (`Codecs`), so that what is said of
reading a file holds for every codec that a name can stand for. `from_namespace` looks a codec up by
its name, and `load_properties` opens a file in it.
-/

namespace DottedKeys

namespace Encoding

/-- What keeps a text from being the name of an encoding. -/
def nameFlaw? (name : Text) : Option NameFlaw :=
  name.flaw? (!·.isSurrogate)

/-- What parts a name, in the form in which names are compared. -/
def hyphen : CodePoint := '-'

/-- A code point of a name as names are compared. -/
def foldPoint (c : CodePoint) : CodePoint :=
  if h : 0x41 ≤ c.val ∧ c.val ≤ 0x5A then ⟨c.val + 0x20, by omega⟩
  else if (0x30 ≤ c.val && c.val ≤ 0x39) || (0x61 ≤ c.val && c.val ≤ 0x7A) || c = '.' then c
  else hyphen

/-- A name as names are compared. -/
def foldName (name : Text) : Text :=
  [hyphen].intercalate (((name.map foldPoint).splitOn hyphen).filter (!·.isEmpty))

/-- Why a file cannot be read in an encoding of a name. -/
inductive NameFault where
  | unknown (name : Text)
  | notText (name : Text)
deriving DecidableEq

/-- What is reported of a name that no file can be read in. -/
def NameFault.message : NameFault → Text
  | unknown name => "unknown encoding: " ++ name
  | notText name =>
    "'" ++ name ++ "' is not a text encoding; use codecs.open() to handle arbitrary codecs"

end Encoding

/-- How the bytes of a file are read. -/
abbrev Decoder := Bytes → Except Encoding.Fault Text

/-- What the name of an encoding can stand for. -/
inductive Codec where
  /-- An encoding of this library. -/
  | own (e : Encoding)
  /-- An encoding that the surroundings bring along. -/
  | foreign (decode : Decoder)
  /-- A transformation, from which no text is to be had. -/
  | transform

namespace Codec

/-- How text is read in a codec, if there is text to be had. -/
def decoder? : Codec → Option Decoder
  | own e => some e.decode
  | foreign decode => some decode
  | transform => none

/-- Several names of one codec. -/
def alike (codec : Codec) (names : List Text) : List (Text × Codec) :=
  names.map (·, codec)

/-- What the codecs that this library knows are called, in the form in which names are compared. -/
def names : List (Text × Codec) :=
  [("ascii", .own .ascii), ("latin-1", .own .latin1), ("utf-8", .own .utf8),
    ("utf-8-sig", .own .utf8Marked), ("utf-16", .own .utf16),
    ("utf-16-le", .own (.utf16In .littleEndian)), ("utf-16-be", .own (.utf16In .bigEndian)),
    ("utf-32", .own .utf32), ("utf-32-le", .own (.utf32In .littleEndian)),
    ("utf-32-be", .own (.utf32In .bigEndian)), ("undefined", .own .undefined),
    ("base64-codec", transform), ("bz2-codec", transform), ("hex-codec", transform),
    ("quopri-codec", transform), ("rot-13", transform), ("uu-codec", transform),
    ("zlib-codec", transform)]

/-- What else they are called. -/
def aliases : List (Text × Codec) :=
  alike (.own .ascii) ["646", "ansi-x3.4-1968", "ansi-x3-4-1968", "ansi-x3.4-1986", "cp367", "csascii",
    "ibm367", "iso646-us", "iso-646.irv-1991", "iso-ir-6", "us", "us-ascii"] ++
  alike (.own .latin1) ["8859", "cp819", "csisolatin1", "ibm819", "iso8859", "iso8859-1", "iso-8859-1",
    "iso-8859-1-1987", "iso-ir-100", "l1", "latin", "latin1"] ++
  alike (.own .utf8) ["u8", "utf", "utf8", "utf8-ucs2", "utf8-ucs4", "cp65001"] ++
  alike (.own .utf16) ["u16", "utf16"] ++
  alike (.own (.utf16In .littleEndian)) ["unicodelittleunmarked", "utf-16le"] ++
  alike (.own (.utf16In .bigEndian)) ["unicodebigunmarked", "utf-16be"] ++
  alike (.own .utf32) ["u32", "utf32"] ++
  alike (.own (.utf32In .littleEndian)) ["utf-32le"] ++
  alike (.own (.utf32In .bigEndian)) ["utf-32be"] ++
  alike transform ["base64", "base-64", "bz2", "hex", "quopri", "quoted-printable", "quotedprintable",
    "rot13", "uu", "zip", "zlib"]

/-- The codec that this library knows under a folded name. A dot in a name can stand where an alias
has a hyphen. -/
def known? (folded : Text) : Option Codec :=
  let undotted : Text := folded.map fun (c : CodePoint) => if c = '.' then Encoding.hyphen else c
  (aliases.lookup folded).or ((aliases.lookup undotted).or (names.lookup folded))

end Codec

/-- What the surroundings bring along: codecs under names that this library does not know, and the
codec that a file is in unless it says otherwise. -/
class Codecs where
  other? : (name : Text) → Option Codec
  ambient : Codec

/-- Surroundings that bring nothing along, and in which files are UTF-8. -/
instance Codecs.plain : Codecs where
  other? _ := none
  ambient := .own .utf8

namespace Codec

variable [Codecs]

/-- The codec of a name. -/
def named? (name : Text) : Option Codec :=
  (known? (Encoding.foldName name)).or (Codecs.other? name)

/-- What stands for the codec of the surroundings where a file is opened. It is the name of no codec. -/
def ambientName : Text := "locale"

/-- The codec that a file is opened in. -/
def opened? (name : Text) : Option Codec :=
  (named? name).or (if name = ambientName then some Codecs.ambient else none)

/-- How a file is read in an encoding that is given by name. -/
def decoder (name : Text) : Except Encoding.NameFault Decoder :=
  match opened? name with
  | none => .error (.unknown name)
  | some codec =>
    match codec.decoder? with
    | none => .error (.notText name)
    | some decode => .ok decode

end Codec

end DottedKeys
