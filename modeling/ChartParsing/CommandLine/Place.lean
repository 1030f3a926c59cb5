import ChartParsing.Grammar.Error

/-!
# Places in a file system

A place is told by the names on the way to it. What a system has of its own, before
any run, is given with it: a session takes place in any system.
-/

namespace ChartParsing.CommandLine

/-- The names on the way to a place from the root, the last one first. -/
abbrev Place := List String

inductive Device
  /-- Reads as empty and keeps nothing. -/
  | null
  /-- Has room for nothing. -/
  | full
  /-- What is left of the standard input. -/
  | input
  deriving DecidableEq, Repr

inductive Kind
  | directory
  | file
  | device (device : Device)
  deriving DecidableEq, Repr

/-- What a system has of its own. -/
structure System where
  work : Place
  /-- The directories, other than the root. -/
  directories : List Place
  devices : List (Place × Device)
  /-- The places that stand for others. -/
  links : List (Place × Place)
  files : List (Place × ByteArray)
  /-- Why no file can be made at a place, if none can. -/
  refusal? : Place → Option FileFault
  maxNameBytes : Nat
  maxPathBytes : Nat

namespace System

variable (system : System)

def target (place : Place) : Place := (system.links.lookup place).getD place

/-- The place that a name leads to from a directory. Where no file can be made, a
name that is too long is only one that is not there. -/
def enter (place : Place) (name : String) : Except FileFault Place :=
  if name = "." then .ok place
  else if name = ".." then .ok place.tail
  else if system.maxNameBytes < name.utf8ByteSize ∧ (system.refusal? place).isNone then
    .error .nameTooLong
  else .ok (system.target (name :: place))

end System

end ChartParsing.CommandLine
