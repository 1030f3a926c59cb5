import ChartParsing.CommandLine.Place

/-!
# Surroundings of a run

A run reads and writes files and streams only through its surroundings. A
session is such surroundings held in memory: a system, the files that runs have
made in it, and what has been printed.
-/

namespace ChartParsing.CommandLine

/-- What a run can do. -/
structure Surroundings (m : Type → Type) where
  readFile : (path : String) → m (Except FileFault ByteArray)
  writeFile : (path : String) → ByteArray → m (Except FileFault Unit)
  /-- Everything on the standard input. -/
  input : m ByteArray
  print : String → m Unit
  printError : String → m Unit

/-- What a path leads to. -/
inductive Destination
  | directory
  /-- A file, there or not, in a directory that is there. -/
  | file (place : Place)
  | device (device : Device)
  /-- What a slash says is a directory, and why it is none. -/
  | slashed (fault : FileFault)
  | nowhere (fault : FileFault)
  deriving DecidableEq, Repr

abbrev Files := List (Place × ByteArray)

namespace Files

variable (files : Files) (system : System)

def contents? (place : Place) : Option ByteArray :=
  files.lookup place <|> system.files.lookup place

def kind? (place : Place) : Option Kind :=
  if place = [] ∨ system.directories.contains place then some .directory
  else match system.devices.lookup place with
    | some device => some (.device device)
    | none => (files.contents? system place).map fun _ => .file

/-- The directory that names lead to from a directory. -/
def walk : Place → List String → Except FileFault Place
  | place, [] => .ok place
  | place, name :: names =>
    match system.enter place name with
    | .error fault => .error fault
    | .ok next =>
      match files.kind? system next with
      | some .directory => walk next names
      | some _ => .error .notADirectory
      | none => .error .notFound

/-- What a name leads to from a directory, if no slash comes after the name. -/
def last (place : Place) (name : String) : Destination :=
  match system.enter place name with
  | .error fault => .nowhere fault
  | .ok next =>
    match files.kind? system next with
    | some .directory => .directory
    | some (.device device) => .device device
    | some .file | none => .file next

/-- What a name leads to from a directory, if a slash comes after the name. -/
def lastSlashed (place : Place) (name : String) : Destination :=
  match files.last system place name with
  | .file next =>
    .slashed (if (files.contents? system next).isSome then .notADirectory else .notFound)
  | .device _ => .slashed .notADirectory
  | .nowhere fault => .slashed fault
  | destination => destination

def destination (path : String) : Destination :=
  let parts := path.splitOn "/"
  let names := parts.filter (· ≠ "")
  let start := if parts.head? = some "" then [] else system.work
  if path = "" then .nowhere .notFound
  else if system.maxPathBytes < path.utf8ByteSize then .nowhere .nameTooLong
  else match names.getLast?, files.walk system start names.dropLast with
    | none, _ => .directory
    | some _, .error fault => .nowhere fault
    | some name, .ok place =>
      if parts.getLast? = some "" then files.lastSlashed system place name
      else files.last system place name

/-- What is read at a path, where the standard input has the given bytes left. -/
def read (input : ByteArray) (path : String) : Except FileFault ByteArray :=
  match files.destination system path with
  | .directory => .error .isADirectory
  | .device .input => .ok input
  | .device _ => .ok .empty
  | .slashed fault | .nowhere fault => .error fault
  | .file place =>
    match files.contents? system place with
    | some bytes => .ok bytes
    | none => .error .notFound

/-- The files with what a path leads to replaced. A directory cannot be made by
writing it, and a device keeps nothing. -/
def write (path : String) (bytes : ByteArray) : Except FileFault Files :=
  match files.destination system path with
  | .directory | .slashed _ => .error .isADirectory
  | .device .full => .error .noSpace
  | .device _ => .ok files
  | .nowhere fault => .error fault
  | .file place =>
    match system.refusal? place with
    | some fault => .error fault
    | none => .ok ((place, bytes) :: files.filter fun (other, _) => other ≠ place)

end Files

structure Session where
  system : System
  files : Files
  input : ByteArray
  printed : String
  errors : String

namespace Session

def surroundings : Surroundings (StateM Session) where
  readFile path := do
    let s ← get
    if s.files.destination s.system path = .device .input then set { s with input := .empty }
    return s.files.read s.system s.input path
  writeFile path bytes := do
    let s ← get
    match s.files.write s.system path bytes with
    | .ok files => set { s with files }; return .ok ()
    | .error fault => return .error fault
  input := do return (← get).input
  print text := modify fun s => { s with printed := s.printed ++ text }
  printError text := modify fun s => { s with errors := s.errors ++ text }

end Session
end ChartParsing.CommandLine
