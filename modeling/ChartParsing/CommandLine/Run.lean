import ChartParsing.CommandLine.Arguments
import ChartParsing.CommandLine.Session
import ChartParsing.Grammar.Compile
import ChartParsing.Grammar.Saved
import ChartParsing.Grammar.Summary
import ChartParsing.Parser.Basic
import ChartParsing.Text.Line

/-!
# A run of the program

A run gets its grammar, saves it if it is asked to, and otherwise prints one line
for each line of its input that is not blank. A line that is no text stops the
run after the lines before it have been answered.
-/

namespace ChartParsing.CommandLine

inductive Exit
  | success
  /-- A fault that stops the run. -/
  | failure
  /-- The arguments cannot be understood. -/
  | misuse
  deriving DecidableEq, Repr

def Exit.code : Exit → UInt8
  | success => 0
  | failure => 1
  | misuse => 255

inductive RunError
  | file (fault : FileFault)
  | grammar (error : GrammarError)
  deriving DecidableEq, Repr

def RunError.report : RunError → String
  | file fault => fault.report
  | grammar error => error.report

/-- The line printed for a sentence. -/
def answer : Except ParseError ParseResult → String
  | .ok result => result.tree.brackets id id
  | .error e => "no parse (" ++ e.message ++ ")"

/-- The lines printed for lines of input, and what stops the run, if anything
does. -/
def answers : List ByteArray → Parser → List String × Option RunError
  | [], _ => ([], none)
  | line :: lines, p =>
    match String.fromUTF8? line with
    | none => ([], some (.file .invalidText))
    | some sentence =>
      if Text.isBlankText sentence then answers lines p
      else
        let (result, p) := p.parse sentence .stopped
        let (printed, error) := answers lines p
        (answer result :: printed, error)

variable {m : Type → Type} [Monad m] (matcher : Text.Matcher) (format : ByteFormat)
  (s : Surroundings m)

def readText (path : String) : m (Except GrammarError String) := do
  match ← s.readFile path with
  | .error fault => return .error (.file fault)
  | .ok bytes =>
    match String.fromUTF8? bytes with
    | some text => return .ok text
    | none => return .error (.file .invalidText)

/-- The grammar of two texts. Both are read before either is looked at. -/
def readGrammar (grammar lexicon : String) (packing : PackingKind) :
    m (Except GrammarError Grammar) := do
  match ← readText s grammar with
  | .error e => return .error e
  | .ok grammar =>
    match ← readText s lexicon with
    | .error e => return .error e
    | .ok lexicon => return Grammar.ofText matcher grammar lexicon packing

/-- The grammar saved in a file. A directory can be opened but holds no grammar. -/
def loadGrammar (path : String) : m (Except RunError Grammar) := do
  match ← s.readFile path with
  | .error .isADirectory =>
    return .error (.grammar (.serialization FileFault.isADirectory.message))
  | .error fault => return .error (.file fault)
  | .ok bytes => return (Grammar.load format bytes.toList).mapError .grammar

def getGrammar (place : GrammarPlace) (packing : PackingKind) :
    m (Except RunError Grammar) := do
  match place with
  | .saved path => loadGrammar format s path
  | .texts grammar lexicon =>
    return (← readGrammar matcher s grammar lexicon packing).mapError .grammar

/-- Ends a run, telling what stopped it, if anything did. -/
def finish : Option RunError → m Exit
  | none => return .success
  | some e => do
    s.printError ("Error: " ++ e.report ++ "\n")
    return .failure

def printSummary (g : Grammar) : m Unit :=
  match g.summary? with
  | some summary => s.printError (summary.text ++ "\n")
  | none => return ()

def answerInput (g : Grammar) (o : ParserOptions) : m Exit := do
  let lines := Text.byteLines (← s.input)
  let (printed, error) := answers lines (Parser.new g o .default 1)
  s.print (String.join (printed.map (· ++ "\n")))
  finish s error

def runWith (settings : Settings) : m Exit := do
  match ← getGrammar matcher format s settings.place settings.packing with
  | .error e => finish s (some e)
  | .ok g =>
    if settings.showSummary then printSummary s g
    match settings.savePath with
    | none => answerInput s g settings.options
    | some path =>
      match ← s.writeFile path ⟨(g.save format).toArray⟩ with
      | .ok () => finish s none
      | .error fault => finish s (some (.file fault))

/-- Runs the program on its arguments, the first of which is its name. -/
def run (arguments : List String) : m Exit := do
  let name := arguments.headD defaultName
  let request := match arguments with
    | [] => Except.error ArgumentError.noProgramName
    | _ :: arguments => Flags.initial.read arguments
  match request with
  | .error e =>
    s.printError (e.text name ++ "\n")
    return .misuse
  | .ok .help =>
    s.print (usage name ++ "\n")
    return .success
  | .ok (.run settings) => runWith matcher format s settings

end ChartParsing.CommandLine
