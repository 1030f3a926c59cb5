import ChartParsing.Parser.Workspace
import ChartParsing.Text.Blank
import ChartParsing.Tree.Derivation
import ChartParsing.Vocabulary

/-!
# Parsing

A parser fills a chart for one sentence after another, cell by cell or width by
width, and reads the best tree off it. It keeps its chart and its workspaces;
the chart can be looked at until the next sentence. A sentence that is rejected
before any cell is filled leaves an empty chart.
-/

namespace ChartParsing

/-- The time that has passed since the parsing of a sentence began, in
milliseconds, at each successive look at the clock. -/
abbrev Clock := Nat → Nat

/-- A clock that stands still. -/
def Clock.stopped : Clock := fun _ => 0

structure ParseResult where
  tree : Tree String String
  inside : Score
  stats : ParseStats

structure Parser where
  grammar : Grammar
  options : ParserOptions
  vocabulary : Vocabulary
  chart : Chart
  workspace : Workspace
  threads : Nat
  workers : Array Workspace
  words : Array UInt32

namespace Parser

def new (grammar : Grammar) (options : ParserOptions) (vocabulary : Vocabulary)
    (threads : Nat) : Parser where
  grammar := grammar
  options := options
  vocabulary := vocabulary
  chart := ∅
  workspace := Workspace.new grammar
  threads := threads
  workers := #[]
  words := #[]

def checkTime (o : ParserOptions) (elapsed : Nat) : Except ParseError Unit :=
  match o.timeLimit with
  | some limit => if limit ≤ elapsed then .error (.cancelled elapsed) else .ok ()
  | none => .ok ()

def runJob (merit : Merit) (job : CellJob) (p : Parser) : ParseStats × Parser :=
  let (cell, stats, workspace) := p.workspace.fill p.grammar merit p.chart p.words job
  let (displaced, chart) := p.chart.replace job.span cell
  (stats, { p with chart, workspace := workspace.keep displaced })

/-- Fills the cells of the jobs one after the other. The clock is looked at before
each. -/
def runSerial (merit : Merit) (clock : Clock) :
    (looks : Nat) → List CellJob → ParseStats → Parser → Except ParseError ParseStats × Parser
  | _, [], stats, p => (.ok stats, p)
  | looks, job :: jobs, stats, p =>
    match checkTime p.options (clock looks) with
    | .error e => (.error e, p)
    | .ok () =>
      let (more, p) := p.runJob merit job
      runSerial merit clock (looks + 1) jobs (stats.merge more) p

/-- The runs of at most `size` elements that a list is cut into, in order. -/
def chunks {α : Type} (size : Nat) (xs : List α) : List (List α) :=
  if xs.isEmpty ∨ size = 0 then []
  else xs.take size :: chunks size (xs.drop size)
termination_by xs.length
decreasing_by
  rename_i h
  simp only [not_or, List.isEmpty_iff] at h
  have := List.length_pos_iff.2 h.1
  simp only [List.length_drop]
  omega

/-- A filled cell that has not been put on the chart. -/
structure FilledCell where
  job : CellJob
  cell : Cell
  stats : ParseStats

/-- Fills the cells of a worker's jobs without touching the chart. -/
def fillAll (g : Grammar) (merit : Merit) (chart : Chart) (words : Array UInt32)
    (jobs : List CellJob) (w : Workspace) : List FilledCell × Workspace :=
  let (reversed, w) := jobs.foldl (fun (filled, w) job =>
    let (cell, stats, w) := w.fill g merit chart words job
    (⟨job, cell, stats⟩ :: filled, w)) ([], w)
  (reversed.reverse, w)

/-- Puts a worker's cells on the chart; the worker keeps those they displace. -/
def commit (filled : List FilledCell) (state : Chart × ParseStats) (w : Workspace) :
    (Chart × ParseStats) × Workspace :=
  filled.foldl (fun ((chart, stats), w) f =>
    let (displaced, chart) := chart.replace f.job.span f.cell
    ((chart, stats.merge f.stats), w.keep displaced)) (state, w)

def commitAll : List (List FilledCell × Workspace) → Chart × ParseStats →
    (Chart × ParseStats) × List Workspace
  | [], state => (state, [])
  | (filled, w) :: rest, state =>
    let (state, w) := commit filled state w
    let (state, ws) := commitAll rest state
    (state, w :: ws)

/-- Fills the cells of one width. The jobs are cut into one run for each worker,
and no cell is put on the chart before all are filled. -/
def runWidth (merit : Merit) (jobs : List CellJob) (stats : ParseStats) (p : Parser) :
    ParseStats × Parser :=
  let workers := p.workers.toList
  let size := (jobs.length + workers.length - 1) / workers.length
  let runs := chunks size jobs
  let filled := (runs.zip workers).map fun (run, w) =>
    fillAll p.grammar merit p.chart p.words run w
  let ((chart, stats), busy) := commitAll filled (p.chart, stats)
  (stats, { p with chart, workers := (busy ++ workers.drop runs.length).toArray })

/-- Fills the cells of groups of equal width. The clock is looked at before each
group. -/
def runGroups (merit : Merit) (clock : Clock) :
    (looks : Nat) → List (List CellJob) → ParseStats → Parser →
      Except ParseError ParseStats × Parser
  | _, [], stats, p => (.ok stats, p)
  | looks, jobs :: groups, stats, p =>
    match checkTime p.options (clock looks) with
    | .error e => (.error e, p)
    | .ok () =>
      let (stats, p) := p.runWidth merit jobs stats
      runGroups merit clock (looks + 1) groups stats p

/-- The parser with a workspace for each of its workers. -/
def hireWorkers (p : Parser) : Parser :=
  let missing := max p.threads 1 - p.workers.size
  { p with workers := p.workers ++ Array.replicate missing (Workspace.new p.grammar) }

/-- Fills the cells of the jobs by width, those of equal width side by side. -/
def runParallel (merit : Merit) (clock : Clock) (jobs : List CellJob) (stats : ParseStats)
    (p : Parser) : Except ParseError ParseStats × Parser :=
  let sorted := jobs.mergeSort fun a b => a.span.width ≤ b.span.width
  let groups := sorted.splitBy fun a b => a.span.width == b.span.width
  p.hireWorkers.runGroups merit clock 0 groups stats

/-- The jobs of a sentence of `length` words, and the schedule after them. -/
def jobs (length : Nat) (schedule : Schedule) (p : Parser) : List CellJob × Schedule :=
  let (spans, schedule) := schedule.spans (UInt16.ofNat length)
  (spans.map (CellJob.ofSpan p.options schedule), schedule)

/-- Whether the tables of a parser reach as far as a job needs: the tags of a single
word are non-terminals, and a table can hold the entries that the job may keep. -/
def canRun (words : Array UInt32) (p : Parser) (job : CellJob) : Bool :=
  (job.span.width != 1 || p.grammar.hasTags (words.getD job.span.start.toNat 0))
    && canHold (job.limit.getD 0)

/-- Whether the tables of a parser reach as far as a sentence needs. They always do
for a sentence that is rejected or given up before any of its cells is filled. -/
def reaches (tokens : List String) (schedule : Schedule) (clock : Clock) (p : Parser) : Bool :=
  let length := tokens.length
  match p.vocabulary.words p.grammar.lexicon tokens #[], checkTime p.options (clock 0) with
  | (none, words), .ok () =>
    p.options.lengthLimit < length || (p.jobs length schedule).1.all (p.canRun words)
  | _, _ => true

/-- Fills the chart for a sentence. -/
def fillChart (tokens : List String) (schedule : Schedule) (merit : Merit) (clock : Clock)
    (p : Parser) : Except ParseError ParseStats × Schedule × Parser :=
  let p := { p with chart := p.chart.clear 0 }
  let length := tokens.length
  let max := p.options.lengthLimit
  if length = 0 then (.error .emptySentence, schedule, p)
  else if max < length then (.error (.sentenceTooLong length max), schedule, p)
  else
    match p.vocabulary.words p.grammar.lexicon tokens (p.words.shrink 0) with
    | (some token, words) => (.error (.unknownWord token), schedule, { p with words })
    | (none, words) =>
      let p := { p with words, chart := p.chart.clear length }
      let (jobs, schedule) := p.jobs length schedule
      let stats := { ParseStats.zero with sentenceLength := length }
      let (outcome, p) :=
        if p.options.parallel then p.runParallel merit clock jobs stats
        else p.runSerial merit clock 0 jobs stats
      (outcome, schedule, p)

def extract (tokens : List String) (stats : ParseStats) (p : Parser) :
    Except ParseError ParseResult := do
  let g := p.grammar
  match p.chart.top?.bind (·.get? g.start) with
  | none => throw .noParse
  | some entry =>
    let tree ← (p.chart.tree g p.chart.whole g.start).mapError fun _ => .noParse
    return {
      tree := tree.map (fun c => g.label c.value) (fun w => tokens.getD w.value "")
      inside := entry.inside
      stats }

def parseWith (tokens : List String) (schedule : Schedule) (merit : Merit) (clock : Clock)
    (p : Parser) : Except ParseError ParseResult × Schedule × Parser :=
  let (outcome, schedule, p) := p.fillChart tokens schedule merit clock
  (outcome.bind fun stats => p.extract tokens stats, schedule, p)

def parseTokens (tokens : List String) (clock : Clock) (p : Parser) :
    Except ParseError ParseResult × Parser :=
  let (result, _, p) := p.parseWith tokens Schedule.bottomUp Merit.inside clock
  (result, p)

def parse (sentence : String) (clock : Clock) (p : Parser) :
    Except ParseError ParseResult × Parser :=
  p.parseTokens (Text.tokens sentence) clock

end Parser

def Grammar.parseSentence (g : Grammar) (sentence : String) (clock : Clock) :
    Except ParseError ParseResult :=
  ((Parser.new g ParserOptions.default Vocabulary.default 1).parse sentence clock).1

end ChartParsing
