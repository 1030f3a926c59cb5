import ChartParsing.Packing.Kind
import ChartParsing.Text.Quoted

/-!
# What can go wrong with a grammar

Faults of a grammar's text, of its size, and of the files it is kept in, each
with the sentence shown to a reader and the form in which a run that stops on it
reports it.
-/

namespace ChartParsing

inductive FileFault
  | notFound
  | permissionDenied
  | notADirectory
  | isADirectory
  | noSpace
  | nameTooLong
  | invalidText
  deriving DecidableEq, Repr

namespace FileFault

/-- The system's number, name and sentence for a fault it reports. -/
def system? : FileFault → Option (Nat × String × String)
  | notFound => some (2, "NotFound", "No such file or directory")
  | permissionDenied => some (13, "PermissionDenied", "Permission denied")
  | notADirectory => some (20, "NotADirectory", "Not a directory")
  | isADirectory => some (21, "IsADirectory", "Is a directory")
  | noSpace => some (28, "StorageFull", "No space left on device")
  | nameTooLong => some (36, "InvalidFilename", "File name too long")
  | invalidText => none

def invalidTextMessage : String := "stream did not contain valid UTF-8"

def message (f : FileFault) : String :=
  match f.system? with
  | some (code, _, message) => message ++ " (os error " ++ toString code ++ ")"
  | none => invalidTextMessage

def report (f : FileFault) : String :=
  match f.system? with
  | some (code, kind, message) =>
    "Os \x7b code: " ++ toString code ++ ", kind: " ++ kind ++ ", message: "
      ++ Text.quoted message ++ " \x7d"
  | none =>
    "Error \x7b kind: InvalidData, message: " ++ Text.quoted invalidTextMessage ++ " \x7d"

end FileFault

/-- Why a grammar cannot be read, compiled or loaded. -/
inductive GrammarError
  /-- A line of another shape than a rule's. -/
  | malformedLine (lineNo : Nat) (line : String)
  | missingStartSymbol
  | duplicateStartSymbol (lineNo : Nat) (line : String)
  /-- A probability that is no number, above one, or zero. -/
  | badProbability (lineNo : Nat) (value : String)
  | unknownSymbol (label : String)
  /-- Non-terminals are numbered in 16 bits. -/
  | tooManyNonTerminals (count : Nat)
  /-- The packing cannot address every child pair. -/
  | packingOverflow (strategy : PackingKind) (required : Nat)
  /-- Nothing that is reported: the run stops, on a number that a table does not have or on
  an offset that overflows. -/
  | indexOutOfRange
  | file (fault : FileFault)
  | serialization (reason : String)
  deriving DecidableEq, Repr

namespace GrammarError

def message : GrammarError → String
  | malformedLine n line => "malformed line " ++ toString n ++ ": " ++ line
  | missingStartSymbol =>
    "no start symbol found; expected a single non-terminal on its own line"
  | duplicateStartSymbol n line =>
    "more than one start symbol declared (line " ++ toString n ++ ": " ++ line ++ ")"
  | badProbability n value => "bad probability on line " ++ toString n ++ ": " ++ value
  | unknownSymbol label => "unknown symbol: " ++ label
  | tooManyNonTerminals n =>
    "grammar has " ++ toString n ++ " non-terminals; at most 65535 are supported"
  | packingOverflow strategy required =>
    strategy.name ++ " packing needs a " ++ toString required
      ++ "-entry array; use the perfect-hash packing for this grammar"
  | indexOutOfRange => "production index out of range"
  | file fault => fault.message
  | serialization reason => "serialization: " ++ reason

/-- A cause with its named fields. -/
def record (cause : String) (fields : List (String × String)) : String :=
  cause ++ " \x7b " ++ ", ".intercalate (fields.map fun (name, value) => name ++ ": " ++ value)
    ++ " \x7d"

def report : GrammarError → String
  | malformedLine n line =>
    record "MalformedLine" [("line_no", toString n), ("line", Text.quoted line)]
  | missingStartSymbol => "MissingStartSymbol"
  | duplicateStartSymbol n line =>
    record "DuplicateStartSymbol" [("line_no", toString n), ("line", Text.quoted line)]
  | badProbability n value =>
    record "BadProbability" [("line_no", toString n), ("value", Text.quoted value)]
  | unknownSymbol label => "UnknownSymbol(" ++ Text.quoted label ++ ")"
  | tooManyNonTerminals n => record "TooManyNonTerminals" [("count", toString n)]
  | packingOverflow strategy required =>
    record "PackingOverflow"
      [("strategy", Text.quoted strategy.name), ("required", toString required)]
  | indexOutOfRange => "IndexOutOfRange"
  | file fault => "Io(" ++ fault.report ++ ")"
  | serialization reason => "Serialization(" ++ Text.quoted reason ++ ")"

end GrammarError
end ChartParsing
