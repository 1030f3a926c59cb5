import ChartParsing.Parser.Basic

/-!
# Parsing many sentences

The sentences of a batch are shared out among workers, each with a parser of its
own, in any order. Their results are put in the order of the sentences.
-/

namespace ChartParsing

/-- A sentence of a batch, known by its position, and when its clock is read. -/
structure BatchItem where
  position : Nat
  sentence : String
  clock : Clock

/-- What has become of a sentence of a batch. -/
abbrev BatchOutcome := Nat × Except ParseError ParseResult

/-- Parses the items of one worker, one after the other. -/
def Parser.parseShare : List BatchItem → Parser → List BatchOutcome
  | [], _ => []
  | item :: items, p =>
    let (result, p) := p.parse item.sentence item.clock
    (item.position, result) :: p.parseShare items

namespace Batch

/-- The items of a batch, timed by clocks that stand still. -/
def items (sentences : List String) : List BatchItem :=
  sentences.zipIdx.map fun (sentence, i) => ⟨i, sentence, .stopped⟩

def inOrder (outcomes : List BatchOutcome) : List (Except ParseError ParseResult) :=
  (outcomes.mergeSort fun a b => a.1 ≤ b.1).map (·.2)

def parseShares (g : Grammar) (o : ParserOptions) (threads : Nat)
    (shares : List (List BatchItem)) : List (Except ParseError ParseResult) :=
  inOrder (shares.flatMap fun share => (Parser.new g o .default threads).parseShare share)

/-- The results of parsing sentences, shared out in runs of equal length. -/
def parse (g : Grammar) (o : ParserOptions) (threads : Nat) (sentences : List String) :
    List (Except ParseError ParseResult) :=
  let workers := max threads 1
  let share := (sentences.length + workers - 1) / workers
  parseShares g o threads (Parser.chunks share (items sentences))

end Batch
end ChartParsing
