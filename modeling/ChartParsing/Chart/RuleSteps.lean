import ChartParsing.Chart.PairTable
import ChartParsing.Chart.Scratch
import Std.Data.HashSet

/-!
# Applying rules to a cell

The three kinds of rules fill a scratch table: lexicon entries from a word,
binary rules from the child pairs of a span, and unary rules from the entries
that are already there.
-/

namespace ChartParsing

namespace Scratch

def addWord (g : Grammar) (word : UInt32) (s : Scratch) : Scratch :=
  (g.lexical.column word).foldl
    (fun s (parent, score) => (s.update ⟨parent, score, .lexical word, 0⟩).2) s

/-- Enters the parents of the child pair of the `i`-th key that rules use, if the
span has such a pair. -/
def addPair (rules : ColumnMatrix) (pairs : PairTable) (i : Nat) (s : Scratch) : Scratch :=
  let key := rules.populated.getD i 0
  let midpoint := pairs.midpoint key
  if midpoint = 0 then s
  else
    let pairScore := pairs.score key
    (rules.populatedColumn i).foldl
      (fun s (parent, rule) => (s.update ⟨parent, rule + pairScore, .binary key, midpoint⟩).2) s

def addPairs (g : Grammar) (pairs : PairTable) (s : Scratch) : Scratch :=
  if pairs.isEmpty then s
  else g.binaryByPair.populated.size.fold (fun i _ s => addPair g.binaryByPair pairs i s) s

end Scratch

namespace UnaryStep

/-- Takes the edges to the parents of one child as candidates, where they improve
on what the scratch table has. -/
def addChild (g : Grammar) (s : Scratch) (stop : UInt16) (candidates : Scratch)
    (child : UInt16) : Scratch :=
  let inside := s.insideOf child
  (g.unaryByChild.column child.toUInt32).foldl (fun candidates (parent, rule) =>
    let score := rule + inside
    if score > s.insideOf parent then
      (candidates.update ⟨parent, score, .unary child, stop⟩).2
    else candidates) candidates

def childOf (candidates : Scratch) (parent : UInt16) : Option UInt16 :=
  match candidates.entryOf? parent with
  | some e => match e.children with
    | .unary child => some child
    | _ => none
  | none => none

/-- Enters a candidate, unless another candidate is derived from its parent. -/
def commit (candidates : Scratch) (blocked : Std.HashSet UInt16) (s : Scratch)
    (parent : UInt16) : Scratch :=
  if blocked.contains parent then s
  else match candidates.entryOf? parent with
    | some e => s.set e
    | none => s

end UnaryStep

/-- Applies every unary rule once to the entries of a scratch table. An entry
that another new entry is derived from keeps its own score and children, so a
unary entry is always derived from one that is not. The best edge to each parent
that it would improve is held in a second table, which is given back. -/
def Scratch.addUnaries (g : Grammar) (stop : UInt16) (s candidates : Scratch) :
    Scratch × Scratch :=
  let candidates := s.populated.foldl (UnaryStep.addChild g s stop) candidates.reset
  let parents := candidates.populated.toList
  let blocked := Std.HashSet.ofList (parents.filterMap (UnaryStep.childOf candidates))
  (parents.foldl (UnaryStep.commit candidates blocked) s, candidates)

end ChartParsing
