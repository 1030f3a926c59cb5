import ChartParsing.Score

/-!
# Figures of merit

A figure of merit ranks the candidates for a cell when only some can be kept.
Higher is better.
-/

namespace ChartParsing

/-- How an entry of a span is ranked, given its non-terminal and its score. Entries
of one word have a ranking of their own, before any unary rule is applied. -/
structure Merit where
  score : (start stop nt : UInt16) → (inside : Score) → Score
  lexicalScore : (start stop nt : UInt16) → (inside : Score) → Score

namespace Merit

/-- The ranking by one function, also of single words. -/
def ofScore (score : (start stop nt : UInt16) → (inside : Score) → Score) : Merit :=
  ⟨score, score⟩

def inside : Merit := ofScore fun _ _ _ inside => inside

/-- A ranking with adjustments: a factor on the score, a bonus for every position
of the span, and for single non-terminals a bonus or a fixed rank. -/
structure Adjustment where
  scale : Score
  span : Score
  boosts : List (UInt16 × Score)
  ranks : List (UInt16 × Score)

def Adjustment.rank (a : Adjustment) (start stop nt : UInt16) (inside : Score) : Score :=
  match a.ranks.lookup nt with
  | some rank => rank
  | none =>
    (inside * a.scale + (a.boosts.lookup nt).getD 0)
      + a.span * Float32.ofNat (stop - start).toNat

/-- The adjusted ranking, with other adjustments for single words if given. -/
def adjusted (a : Adjustment) (lexical : Option Adjustment) : Merit :=
  ⟨a.rank, (lexical.getD a).rank⟩

end Merit
end ChartParsing
