import ChartParsing.Chart.Basic
import ChartParsing.Grammar.Basic
import ChartParsing.Tree.Basic

/-!
# Reading trees off a chart

The entries of a chart say what they were derived from. Following these pointers
gives a tree whose branches are labelled with non-terminals and whose leaves are
positions of the sentence. Unary pointers of one cell might run in a circle, so
no more of them are followed in a row than there are non-terminals. A split that
is not inside its span leads to a part that no chart has; the other part is looked
at first if it comes first.
-/

namespace ChartParsing

/-- Why a sentence has no tree. -/
inductive ParseError
  | noParse
  | unknownWord (token : String)
  | sentenceTooLong (length max : Nat)
  | emptySentence
  /-- The sentence was given up after that many milliseconds. -/
  | cancelled (elapsed : Nat)
  deriving DecidableEq, Repr

def ParseError.message : ParseError → String
  | noParse => "no parse"
  | unknownWord token => "unknown word: " ++ token
  | sentenceTooLong length max =>
    "sentence length " ++ toString length ++ " exceeds maximum " ++ toString max
  | emptySentence => "empty sentence"
  | cancelled elapsed => "parse abandoned after " ++ toString elapsed ++ "ms"

/-- Why a chart has no tree. -/
inductive TreeFault
  /-- A pointer leads to no entry, or unary pointers run in a circle. -/
  | noParse
  /-- A cell is asked for that the chart does not have. -/
  | noCell (span : Span)
  deriving DecidableEq, Repr

namespace Chart

/-- The tree of a non-terminal over a span, following at most `unaries` unary
pointers before the next binary one, and at most `overruns` splits that are not
before the end of their span. -/
def treeWithin (g : Grammar) (chart : Chart) (overruns : Nat) (span : Span) (nt : UInt16)
    (unaries : Nat) : Except TreeFault (Tree UInt16 Nat) := do
  unless chart.holds span do throw (.noCell span)
  let constituent : Covering UInt16 := ⟨nt, span.start.toNat, span.stop.toNat⟩
  match (chart.cell span).get? nt with
  | none => throw .noParse
  | some entry =>
    match entry.children with
    | .lexical _ =>
      return .branch constituent
        [.leaf ⟨span.start.toNat, span.start.toNat, span.stop.toNat⟩]
    | .unary child =>
      match unaries with
      | 0 => throw .noParse
      | unaries + 1 =>
        let tree ← treeWithin g chart overruns span child unaries
        return .branch constituent [tree]
    | .binary key =>
      match g.packing.unpack key with
      | none => throw .noParse
      | some (left, right) =>
        if h : span.start < entry.midpoint ∧ entry.midpoint < span.stop then
          have := UInt16.lt_iff_toNat_lt.1 h.1
          have := UInt16.lt_iff_toNat_lt.1 h.2
          let leftTree ← treeWithin g chart overruns ⟨span.start, entry.midpoint⟩ left g.size
          let rightTree ← treeWithin g chart overruns ⟨entry.midpoint, span.stop⟩ right g.size
          return .branch constituent [leftTree, rightTree]
        else if entry.midpoint ≤ span.start then throw (.noCell ⟨span.start, entry.midpoint⟩)
        else
          match overruns with
          | 0 => throw .noParse
          | overruns + 1 =>
            let _ ← treeWithin g chart overruns ⟨span.start, entry.midpoint⟩ left g.size
            throw (.noCell ⟨entry.midpoint, span.stop⟩)
termination_by (overruns, span.stop.toNat - span.start.toNat, unaries)
decreasing_by
  · exact Prod.Lex.right _ (Prod.Lex.right _ (Nat.lt_succ_self _))
  · exact Prod.Lex.right _ (Prod.Lex.left _ _ (by omega))
  · exact Prod.Lex.right _ (Prod.Lex.left _ _ (by omega))
  · exact Prod.Lex.left _ _ (Nat.lt_succ_self _)

/-- The tree of a non-terminal over a span. Splits that overrun their span can follow
one another only as long as no entry comes twice. -/
def tree (g : Grammar) (chart : Chart) (span : Span) (nt : UInt16) :
    Except TreeFault (Tree UInt16 Nat) :=
  treeWithin g chart (spanCount chart.size * g.size) span nt g.size

end Chart
end ChartParsing
