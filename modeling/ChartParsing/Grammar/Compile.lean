import ChartParsing.Grammar.Basic
import ChartParsing.Grammar.Source
import Std.Data.HashSet

/-!
# Compiling a grammar

Labels are put in their structural classes and numbered class by class, within a
class in alphabetical order. Lexicon entries become productions before rules do.
-/

namespace ChartParsing

/-- Where the labels of a source occur. -/
structure Occurrences where
  /-- Parents of lexicon entries. -/
  tags : Std.HashSet String
  /-- Left children of binary rules. -/
  lefts : Std.HashSet String
  /-- Right children of binary rules. -/
  rights : Std.HashSet String
  /-- Every label once, in alphabetical order. -/
  labels : List String

namespace Occurrences

def labelsOf (r : LabelledRule) : List String := r.parent :: r.left :: r.right.toList

def ofSource (source : GrammarSource) : Occurrences where
  tags := .ofList (source.lexicon.map (·.parent))
  lefts := .ofList ((source.rules.filter (·.isBinary)).map (·.left))
  rights := .ofList (source.rules.filterMap (·.right))
  labels := SortedSearch.sortedDistinct
    (source.start :: source.lexicon.map (·.parent) ++ source.rules.flatMap labelsOf)

/-- The class of a label. Whatever is no tag and no child of a binary rule counts
as a unary child, also the start symbol. -/
def classOf (o : Occurrences) (label : String) : LabelClass :=
  if o.tags.contains label then .partOfSpeech
  else match o.lefts.contains label, o.rights.contains label with
    | true, true => .eitherChild
    | true, false => .leftChildOnly
    | false, true => .rightChildOnly
    | false, false => .unaryChildOnly

def members (o : Occurrences) (c : LabelClass) : List String :=
  o.labels.filter fun label => o.classOf label = c

end Occurrences

namespace Grammar

/-- The number of a label that the table must hold. -/
def numberIn (labels : LabelTable) (label : String) : Except GrammarError UInt16 :=
  match labels.number? label with
  | some n => .ok n.toUInt16
  | none => .error (.unknownSymbol label)

/-- The productions of lexicon entries, last first, and the table of their words. -/
def compileEntry (labels : LabelTable) (s : LabelTable × List Production) (entry : LabelledRule) :
    Except GrammarError (LabelTable × List Production) := do
  let (word, words) := s.1.insert entry.left
  let parent ← numberIn labels entry.parent
  return (words, ⟨parent, .lexical word, entry.logProb⟩ :: s.2)

/-- The production of a rule. -/
def compileRule (labels : LabelTable) (rule : LabelledRule) : Except GrammarError Production := do
  let parent ← numberIn labels rule.parent
  let left ← numberIn labels rule.left
  match rule.right with
  | some right =>
    let right ← numberIn labels right
    return ⟨parent, .binary left right, rule.logProb⟩
  | none => return ⟨parent, .unary left, rule.logProb⟩

/-- Non-terminals are numbered in 16 bits. -/
def maxLabels : Nat := 65535

def compile (source : GrammarSource) (kind : PackingKind) : Except GrammarError Grammar := do
  let occurrences := Occurrences.ofSource source
  if occurrences.labels.length > maxLabels then
    throw (.tooManyNonTerminals occurrences.labels.length)
  let bounds := ClassBounds.ofSizes fun c => (occurrences.members c).length
  let labels := LabelTable.ofList (LabelClass.all.flatMap occurrences.members)
  let (lexicon, entries) ← source.lexicon.foldlM (compileEntry labels) (∅, [])
  let rules ← source.rules.mapM (compileRule labels)
  let start ← numberIn labels source.start
  ofProductions start labels lexicon bounds (entries.reverse ++ rules) kind

def ofText (matcher : Text.Matcher) (grammar lexicon : String) (kind : PackingKind) :
    Except GrammarError Grammar := do
  compile (← GrammarSource.read matcher grammar lexicon) kind

end Grammar
end ChartParsing
