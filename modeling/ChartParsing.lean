import ChartParsing.Beam.Queue
import ChartParsing.Beam.Selection
import ChartParsing.ByteFormat.Basic
import ChartParsing.ByteFormat.Standard
import ChartParsing.Capacity
import ChartParsing.Chart.Basic
import ChartParsing.Chart.Cell
import ChartParsing.Chart.PairTable
import ChartParsing.Chart.RuleSteps
import ChartParsing.Chart.Scratch
import ChartParsing.CommandLine.Arguments
import ChartParsing.CommandLine.Run
import ChartParsing.CommandLine.Session
import ChartParsing.Grammar.Basic
import ChartParsing.Grammar.Compile
import ChartParsing.Grammar.Error
import ChartParsing.Grammar.Saved
import ChartParsing.Grammar.Source
import ChartParsing.Grammar.Summary
import ChartParsing.Label.Class
import ChartParsing.Label.Table
import ChartParsing.Main
import ChartParsing.Matrix.ByColumn
import ChartParsing.Matrix.ByRow
import ChartParsing.Matrix.Triple
import ChartParsing.Merit
import ChartParsing.Numeral.Read
import ChartParsing.Numeral.Single
import ChartParsing.Numeral.Write
import ChartParsing.Outside
import ChartParsing.Packing.Basic
import ChartParsing.Packing.BitVector
import ChartParsing.Packing.Kind
import ChartParsing.Packing.PairHash
import ChartParsing.Packing.Shift
import ChartParsing.Packing.SlotTable
import ChartParsing.Parser.Basic
import ChartParsing.Parser.Batch
import ChartParsing.Parser.Options
import ChartParsing.Parser.Workspace
import ChartParsing.Rule
import ChartParsing.Schedule
import ChartParsing.Score
import ChartParsing.SortedSearch
import ChartParsing.Text.Backtracking
import ChartParsing.Text.Blank
import ChartParsing.Text.CaseTable
import ChartParsing.Text.Line
import ChartParsing.Text.Lowercase
import ChartParsing.Text.Pattern
import ChartParsing.Text.PrintTable
import ChartParsing.Text.Quoted
import ChartParsing.Tree.Basic
import ChartParsing.Tree.Derivation
import ChartParsing.Vocabulary
import ChartParsing.Proofs.Score.Rounding
import ChartParsing.Proofs.Score.Units
import ChartParsing.Proofs.Score.Bits
import ChartParsing.Proofs.Score.Sum
import ChartParsing.Proofs.Score.Order
import ChartParsing.Proofs.Score.FirstGreatest
import ChartParsing.Proofs.SortedSearch
import ChartParsing.Proofs.Matrix.Triple
import ChartParsing.Proofs.Matrix.Buckets
import ChartParsing.Proofs.Matrix.Entries
import ChartParsing.Proofs.Packing.Shift
import ChartParsing.Proofs.Packing.TableSearch
import ChartParsing.Proofs.Matrix.Slices
import ChartParsing.Proofs.Chart.SpanMap
import ChartParsing.Proofs.Packing.PairHash
import ChartParsing.Proofs.Grammar.Coherent
import ChartParsing.Proofs.Label.Table
import ChartParsing.Proofs.Label.Class
import ChartParsing.Proofs.Grammar.Compile
import ChartParsing.Proofs.Grammar.Crowded
import ChartParsing.Proofs.Grammar.Numbering
import ChartParsing.Proofs.Chart.Places
import ChartParsing.Proofs.Chart.Cell
import ChartParsing.Proofs.Chart.Scratch
import ChartParsing.Proofs.Chart.PairTable
import ChartParsing.Proofs.Chart.Kept
import ChartParsing.Proofs.Chart.Offers
import ChartParsing.Proofs.Chart.UnaryStep
import ChartParsing.Proofs.Schedule
import ChartParsing.Proofs.Beam.Queue
import ChartParsing.Proofs.Beam.Selection
import ChartParsing.Proofs.Parser.Workspace
import ChartParsing.Proofs.Parser.Order
import ChartParsing.Proofs.Parser.Run
import ChartParsing.Proofs.Parser.Workers
import ChartParsing.Proofs.Parser.Sentence
import ChartParsing.Proofs.Derivation.Basic
import ChartParsing.Proofs.Derivation.Exhaustive
import ChartParsing.Proofs.Derivation.Best
import ChartParsing.Proofs.Grammar.LinePattern
import ChartParsing.Proofs.Grammar.Making
import ChartParsing.Proofs.Grammar.Classified
import ChartParsing.Proofs.Derivation.Soundness
import ChartParsing.Proofs.Derivation.Recognition
import ChartParsing.Proofs.Parser.SideBySide
import ChartParsing.Proofs.Parser.Reuse
import ChartParsing.Proofs.Packing.Slots
import ChartParsing.Proofs.Packing.Congruence
import ChartParsing.Proofs.Grammar.Siblings
import ChartParsing.Proofs.Outside.Raising
import ChartParsing.Proofs.Outside.Recursion
import ChartParsing.Proofs.Chart.Grounded
import ChartParsing.Proofs.Beam.Monotone
import ChartParsing.Proofs.Derivation.Pointers
import ChartParsing.Proofs.Beam.Closed
import ChartParsing.Proofs.Parser.Laid
import ChartParsing.Proofs.Derivation.Rooted
import ChartParsing.Proofs.Packing.Order
import ChartParsing.Proofs.Packing.Bijection
import ChartParsing.Proofs.Packing.LeastTables
import ChartParsing.Proofs.Grammar.Views
import ChartParsing.Proofs.Grammar.Repacked
import ChartParsing.Proofs.Chart.Alike
import ChartParsing.Proofs.Chart.Repacked
import ChartParsing.Proofs.Beam.Repacked
import ChartParsing.Proofs.Parser.Repacked
import ChartParsing.Proofs.Derivation.Closed
import ChartParsing.Proofs.Score.Exact
import ChartParsing.Proofs.Chart.UnaryHop
import ChartParsing.Proofs.Chart.PairUnion
import ChartParsing.Proofs.Chart.PairProduct
import ChartParsing.Proofs.Derivation.Unfolding
import ChartParsing.Proofs.Derivation.ExactSums
import ChartParsing.Proofs.Outside.Agreement
import ChartParsing.Proofs.ByteFormat.Basic
import ChartParsing.Proofs.ByteFormat.Standard
import ChartParsing.Proofs.Grammar.Saved
import ChartParsing.Proofs.Text.Backtracking
import ChartParsing.Proofs.Text.Layout
import ChartParsing.Proofs.Text.Pattern
import ChartParsing.Proofs.Grammar.Source
import ChartParsing.Proofs.Grammar.Numbering
import ChartParsing.Proofs.Grammar.Reordered
import ChartParsing.Proofs.Grammar.Renumbered
import ChartParsing.Proofs.Beam.Renumbered
import ChartParsing.Proofs.Parser.Renumbered
import ChartParsing.Proofs.Chart.Renumbered
import ChartParsing.Proofs.Beam.Ranking
import ChartParsing.Proofs.Beam.Truncation
import ChartParsing.Proofs.Beam.Turns
import ChartParsing.Proofs.Beam.Room
import ChartParsing.Proofs.Beam.Forgetting
import ChartParsing.Proofs.Beam.Contest
import ChartParsing.Proofs.Beam.Limited
import ChartParsing.Proofs.Beam.Settled
import ChartParsing.Proofs.Beam.Narrowing
import ChartParsing.Proofs.Beam.UnaryClosure
import ChartParsing.Proofs.Beam.Unbounded
import ChartParsing.Proofs.Parser.Verdict
import ChartParsing.Proofs.Schedule.Calls
import ChartParsing.Proofs.Chart.EntryMap
