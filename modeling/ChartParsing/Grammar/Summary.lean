import ChartParsing.Grammar.Basic

/-!
# Summary counts of a grammar
-/

namespace ChartParsing

structure GrammarSummary where
  packing : PackingKind
  nonTerminals : Nat
  words : Nat
  binaryRules : Nat
  unaryRules : Nat
  lexicalRules : Nat
  /-- Child pairs that some binary rule uses. -/
  usedPairs : Nat
  packedSize : Nat
  classSizes : List (LabelClass × Nat)
  start : String
  deriving DecidableEq, Repr

/-- The summary of a grammar, if its start symbol has a label. -/
def Grammar.summary? (g : Grammar) : Option GrammarSummary :=
  (g.label? g.start).map fun start =>
    { packing := g.packing.kind
      nonTerminals := g.size
      words := g.lexicon.size
      binaryRules := g.binaryByParent.size
      unaryRules := g.unaryByParent.size
      lexicalRules := g.lexical.size
      usedPairs := g.binaryByPair.populated.size
      packedSize := g.packing.size
      classSizes := LabelClass.all.map fun c => (c, (g.bounds.interval c).size)
      start }

namespace GrammarSummary

/-- The summary as lines of text, the last one unterminated. -/
def text (s : GrammarSummary) : String :=
  let line (name value : String) : String := name ++ ": " ++ value
  "\n".intercalate (
    [line "Binary rules" (toString s.binaryRules),
     line "Unary rules" (toString s.unaryRules),
     line "Lexical rules" (toString s.lexicalRules),
     line "Non-terminals" (toString s.nonTerminals),
     line "Lexical symbols" (toString s.words)]
    ++ (s.classSizes.map fun (c, n) => "  " ++ line c.name (toString n))
    ++ [line "Start symbol" s.start,
        line "Packing function" s.packing.name,
        line "Valid child pairs" (toString s.usedPairs),
        line "Packed array size" (toString s.packedSize)])

end GrammarSummary
end ChartParsing
