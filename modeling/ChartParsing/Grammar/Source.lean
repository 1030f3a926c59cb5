import ChartParsing.Grammar.Error
import ChartParsing.Numeral.Read
import ChartParsing.Rule
import ChartParsing.Text.Line
import ChartParsing.Text.Pattern

/-!
# Reading grammar text

A grammar text has one line with a single token, the start symbol, and any
number of rules `A -> B p` and `A -> B C p`. A lexicon text has entries
`A -> word p`. Lines without a token, and lines whose first token begins with
`#` or `//`, are skipped. The first line at fault in reading order is reported,
the whole grammar text before the lexicon text.
-/

namespace ChartParsing

/-- Rules as they are read, before they are compiled. -/
structure GrammarSource where
  start : String
  rules : List LabelledRule
  lexicon : List LabelledRule

namespace GrammarSource

/-- The log-probability a numeral writes: a plain probability above zero and up
to one, or a negative number taken as it is. Zero could be read as either. -/
def logProb? (value : String) : Option Score :=
  match Numeral.read? value with
  | none => none
  | some p =>
    if p.isNaN || p > 1 || p == 0 then none
    else if p > 0 then some (Score.ln p)
    else some p

/-! ## The shapes of lines -/

namespace LinePattern

open Text Text.Pattern

def blanks : Pattern := run .blank 0

def gap : Pattern := run .blank 1

def token : Pattern := group (run .mark 1)

def arrow : Pattern := literal "->"

/-- The expression `^\s*(#.*|//.*)?$`. -/
def skippable : Pattern :=
  sequence [blanks, optional (group (either
    (sequence [literal "#", run .inLine 0]) (sequence [literal "//", run .inLine 0])))]

/-- The expression `^\s*(\S+)\s*$`. -/
def start : Pattern := sequence [blanks, token, blanks]

/-- The expression `^\s*(\S+)\s+->\s+(\S+)\s+(\S+)\s*$`. -/
def unary : Pattern := sequence [blanks, token, gap, arrow, gap, token, gap, token, blanks]

/-- The expression `^\s*(\S+)\s+->\s+(\S+)\s+(\S+)\s+(\S+)\s*$`. -/
def binary : Pattern :=
  sequence [blanks, token, gap, arrow, gap, token, gap, token, gap, token, blanks]

/-- An entry of a lexicon looks as a unary rule does. -/
def lexical : Pattern := unary

end LinePattern

structure NumberedLine where
  lineNo : Nat
  text : String
  deriving DecidableEq

def numbered (text : String) : List NumberedLine :=
  (Text.lines text).zipIdx.map fun (line, i) => ⟨i + 1, line⟩

namespace NumberedLine

variable (l : NumberedLine)

def malformed : GrammarError := .malformedLine l.lineNo l.text

def rule (parent left : String) (right : Option String) (value : String) :
    Except GrammarError LabelledRule :=
  match logProb? value with
  | some p => .ok ⟨parent, left, right, p⟩
  | none => .error (.badProbability l.lineNo value)

end NumberedLine

/-- What has been read of a grammar text; the last rule comes first. -/
structure RulesSoFar where
  start : Option String
  reversed : List LabelledRule

variable (matcher : Text.Matcher)

def RulesSoFar.read (s : RulesSoFar) (l : NumberedLine) : Except GrammarError RulesSoFar :=
  if matcher.isMatch LinePattern.skippable l.text then .ok s
  else if let some [parent, left, right, value] := matcher.groups? LinePattern.binary l.text then
    (l.rule parent left (some right) value).map fun r => { s with reversed := r :: s.reversed }
  else if let some [parent, child, value] := matcher.groups? LinePattern.unary l.text then
    (l.rule parent child none value).map fun r => { s with reversed := r :: s.reversed }
  else if let some [label] := matcher.groups? LinePattern.start l.text then
    match s.start with
    | some _ => .error (.duplicateStartSymbol l.lineNo l.text)
    | none => .ok { s with start := some label }
  else .error l.malformed

def readRules (text : String) : Except GrammarError (String × List LabelledRule) := do
  let s ← (numbered text).foldlM (RulesSoFar.read matcher) ⟨none, []⟩
  match s.start with
  | some start => .ok (start, s.reversed.reverse)
  | none => .error .missingStartSymbol

/-- Reads one line of a lexicon text; the last entry comes first. -/
def readEntry (reversed : List LabelledRule) (l : NumberedLine) :
    Except GrammarError (List LabelledRule) :=
  if matcher.isMatch LinePattern.skippable l.text then .ok reversed
  else if let some [parent, word, value] := matcher.groups? LinePattern.lexical l.text then
    (l.rule parent word none value).map (· :: reversed)
  else .error l.malformed

def readLexicon (text : String) : Except GrammarError (List LabelledRule) :=
  ((numbered text).foldlM (readEntry matcher) []).map List.reverse

def read (grammar lexicon : String) : Except GrammarError GrammarSource := do
  let (start, rules) ← readRules matcher grammar
  let entries ← readLexicon matcher lexicon
  .ok ⟨start, rules, entries⟩

end GrammarSource
end ChartParsing
