import ChartParsing.Numeral.Read
import ChartParsing.Packing.Kind
import ChartParsing.Parser.Options

/-!
# Arguments

The arguments are read from left to right, and the first that is at fault ends
the reading. A request for help is granted as soon as it is met, whatever comes
after it. A later value of an option replaces an earlier one.
-/

namespace ChartParsing.CommandLine

inductive GrammarPlace
  | texts (grammar lexicon : String)
  | saved (path : String)
  deriving DecidableEq, Repr

structure Settings where
  place : GrammarPlace
  packing : PackingKind
  /-- Where the compiled grammar is to be saved, instead of parsing. -/
  savePath : Option String
  options : ParserOptions
  showSummary : Bool

/-- Why arguments cannot be understood. -/
inductive ArgumentError
  | noProgramName
  | missingValue (option : String)
  | notACount (option value : String)
  | notAFraction (option value : String)
  | unknownPacking (name : String)
  | unknownArgument (argument : String)
  /-- A saved grammar and texts of a grammar are given together. -/
  | twoPlaces
  | noPlace
  deriving DecidableEq, Repr

def ArgumentError.message : ArgumentError → String
  | noProgramName => "bad argument vector"
  | missingValue option => option ++ " needs a value"
  | notACount option value => option ++ " expects a number, got " ++ value
  | notAFraction option value => option ++ " expects a fraction, got " ++ value
  | unknownPacking name => PackingKind.unknownMessage name
  | unknownArgument argument => "invalid argument " ++ argument
  | twoPlaces => "--load can't be combined with -g or -l"
  | noPlace => "need both -g and -l, or --load"

inductive Request
  | help
  | run (settings : Settings)

/-- What has been read of the arguments. -/
structure Flags where
  grammar : Option String
  lexicon : Option String
  load : Option String
  save : Option String
  packing : PackingKind
  options : ParserOptions
  showSummary : Bool

namespace Flags

def initial : Flags := ⟨none, none, none, none, .perfectHash, .default, false⟩

/-- The options that are followed by a value. -/
def valued : List String := ["-g", "-l", "--load", "--save", "-p", "-b", "-lb", "-u", "-m"]

/-- The number that the value of an option writes. -/
def count (option value : String) : Except ArgumentError Nat :=
  match Numeral.readCount? value with
  | some n => .ok n
  | none => .error (.notACount option value)

def set (option value : String) (f : Flags) : Except ArgumentError Flags :=
  match option with
  | "-g" => .ok { f with grammar := some value }
  | "-l" => .ok { f with lexicon := some value }
  | "--load" => .ok { f with load := some value }
  | "--save" => .ok { f with save := some value }
  | "-p" =>
    match PackingKind.ofName? value with
    | some kind => .ok { f with packing := kind }
    | none => .error (.unknownPacking value)
  | "-b" =>
    (count option value).map fun n =>
      { f with options := { f.options with beamWidth := some n } }
  | "-lb" =>
    (count option value).map fun n =>
      { f with options := { f.options with wordBeamWidth := some n } }
  | "-m" =>
    (count option value).map fun n => { f with options := { f.options with maxLength := n } }
  | "-u" =>
    match Numeral.read? value with
    | some share => .ok { f with options := f.options.withUnaryFraction share }
    | none => .error (.notAFraction option value)
  | _ => .error (.unknownArgument option)

def switch (option : String) (f : Flags) : Except ArgumentError Flags :=
  match option with
  | "-j" => .ok { f with options := { f.options with parallel := true } }
  | "-s" | "--stats" => .ok { f with showSummary := true }
  | _ => .error (.unknownArgument option)

/-- The settings the flags add up to: one place to get the grammar from. -/
def settings (f : Flags) : Except ArgumentError Settings :=
  let on (place : GrammarPlace) : Settings :=
    ⟨place, f.packing, f.save, f.options, f.showSummary⟩
  match f.load, f.grammar, f.lexicon with
  | some path, none, none => .ok (on (.saved path))
  | some _, _, _ => .error .twoPlaces
  | none, some grammar, some lexicon => .ok (on (.texts grammar lexicon))
  | none, _, _ => .error .noPlace

/-- Reads the arguments after the program's name. -/
def read : List String → Flags → Except ArgumentError Request
  | [], f => f.settings.map .run
  | option :: rest, f =>
    if option = "-h" ∨ option = "--help" then .ok .help
    else if valued.contains option then
      match rest with
      | [] => .error (.missingValue option)
      | value :: rest => (f.set option value).bind (read rest)
    else (f.switch option).bind (read rest)

end Flags

def defaultName : String := "sparse-cky"

def usage (name : String) : String :=
  "\n".intercalate
    ["Usage: " ++ name
        ++ " (-g GRAMMAR -l LEXICON | --load FILE) [options] < sentences",
     "",
     "Reads one whitespace-tokenized sentence per line and prints its best parse, or",
     "'no parse' if there isn't one.",
     "",
     "Options:",
     "  -h, --help      Print this message",
     "  -g FILE         Grammar file",
     "  -l FILE         Lexicon file",
     "  --load FILE     Read a compiled grammar written with --save",
     "  --save FILE     Write the compiled grammar and exit",
     "  -p NAME         Packing function: shift, bit-vector or perfect-hash"
        ++ " (default perfect-hash)",
     "  -b N            Beam width per cell (default: exhaustive)",
     "  -lb N           Beam width for span-1 cells (default: unpruned)",
     "  -u F            Share of the span-1 beam kept for unary parents (default 0.3)",
     "  -m N            Maximum sentence length (default 200)",
     "  -j              Populate cells of equal width in parallel",
     "  -s, --stats     Print grammar statistics to stderr",
     "",
     "Set RUST_LOG=debug for per-sentence logging."]

def ArgumentError.text (name : String) (e : ArgumentError) : String :=
  "argument error: " ++ e.message ++ ".\n\n" ++ usage name

end ChartParsing.CommandLine
