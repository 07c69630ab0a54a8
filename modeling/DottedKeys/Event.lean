import DottedKeys.Failure

/-!
# The log of a run

A run logs events. An event has a level, the part of the program that it comes from, and a text. The
events are what `load_keys`, `stage_source`, `write_archive`, `package` and `main` log, in lines as
`_configure_logging` lays them out.
-/

namespace DottedKeys

/-- How much an event matters, the least first. -/
inductive Level where
  | debug
  | info
  | warning
  | error
  | critical
deriving DecidableEq

namespace Level

/-- The name of a level. -/
def name : Level → Text
  | debug => "DEBUG"
  | info => "INFO"
  | warning => "WARNING"
  | error => "ERROR"
  | critical => "CRITICAL"

/-- The levels, the most important first. -/
def all : List Level := [critical, error, warning, info, debug]

/-- The place of a level, the least important first. -/
def rank : Level → Nat
  | debug => 0
  | info => 1
  | warning => 2
  | error => 3
  | critical => 4

/-- The level of a name. -/
def named? (name : Text) : Option Level :=
  all.find? (·.name = name)

end Level

/-- What a run logs. Files are named as they were asked for. -/
inductive Event where
  /-- Reading properties ended early, with so many keys read. -/
  | unread (file : Text) (kept : Nat) (cause : Failure)
  /-- So many keys go into the source. -/
  | loaded (file : Text) (count : Nat)
  /-- Source was written to a file. -/
  | staged (file : Text)
  /-- So many bytes went into an archive. -/
  | archived (bytes : Nat) (entry : Text)
  /-- An archive was finished. -/
  | wrote (entry archive : Text)
  /-- The run ended early. -/
  | failed (cause : Failure)

namespace Event

/-- How much an event matters. -/
def level : Event → Level
  | unread .. => .error
  | loaded .. => .info
  | staged .. => .debug
  | archived .. => .debug
  | wrote .. => .info
  | failed .. => .error

/-- The part of the program that an event comes from. -/
def origin : Event → Text
  | unread .. => "propkeys.generator"
  | loaded .. => "propkeys.generator"
  | staged .. => "propkeys.packager"
  | archived .. => "propkeys.packager"
  | wrote .. => "propkeys.packager"
  | failed .. => "propkeys"

/-- The text of an event. -/
def message : Event → Text
  | unread file kept _ =>
    "failed to load properties from " ++ file ++ ", continuing with " ++ Text.ofNat kept ++ " keys"
  | loaded file count => "loaded " ++ Text.ofNat count ++ " keys from " ++ file
  | staged file => "staged " ++ file
  | archived bytes entry => "archived " ++ Text.ofNat bytes ++ " bytes as " ++ entry
  | wrote entry archive => "wrote " ++ entry ++ " to " ++ archive
  | failed cause => cause.message

/-- The failure that an event tells of on the side. -/
def cause? : Event → Option Failure
  | unread _ _ cause => some cause
  | _ => none

/-- An event as a line of the log. -/
def line (e : Event) : Text :=
  e.level.name ++ " " ++ e.origin ++ ": " ++ e.message ++ "\n"

end Event

end DottedKeys
