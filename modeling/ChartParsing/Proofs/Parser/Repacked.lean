import ChartParsing.Proofs.Beam.Repacked
import ChartParsing.Proofs.Grammar.Making
import ChartParsing.Proofs.Parser.Sentence

/-!
# Parsing under two packings

Two parsers of one source, each under a packing of its own, parse the same sentences. Their
workspaces, and their charts, are alike before every cell and after it; so they agree on all
that does not speak of keys. Only the child pairs that are found are told apart: a packing
that accepts more pairs finds more of them.
-/

namespace ChartParsing

/-! ## Cells -/

namespace Workspace

/-- Two workspaces have alike tables. Their child pairs and their spare cells are left out, as
both are cleared before they are used. -/
structure Alike (p q : Packing) (w v : Workspace) : Prop where
  scratch : w.scratch.Alike p q v.scratch
  unaries : w.unaries.Alike p q v.unaries
  beam : w.beam.Alike p q v.beam

variable {g h : Grammar} {c d : Chart} {w v : Workspace}

theorem alike_new (hgh : g.Repacked h) : (new g).Alike g.packing h.packing (new h) := by
  unfold new
  rw [hgh.size_eq]
  exact ⟨Scratch.alike_new _ _ _, Scratch.alike_new _ _ _, BeamSelector.alike_new _ _ _⟩

theorem Alike.derive (hgh : g.Repacked h) (hg : g.Coherent) (hh : h.Coherent) (hw : w.Sound g)
    (hv : v.Sound h) (hwv : w.Alike g.packing h.packing v)
    (hcd : c.Alike g.packing h.packing d) (words : Array UInt32) {span : Span} {size : Nat}
    (hspan : span.within size = true) :
    (w.derive g c words span).1 ≤ (v.derive h d words span).1 ∧
      (w.derive g c words span).2.Alike g.packing h.packing (v.derive h d words span).2 := by
  have hpairs : w.pairs.clear.addSpan g c span = PairTable.ofSpan g c span := by
    rw [hw.pairs.clear_eq]
    rfl
  have hpairs' : v.pairs.clear.addSpan h d span = PairTable.ofSpan h d span := by
    rw [hv.pairs.clear_eq]
    rfl
  unfold Workspace.derive
  rw [hpairs, hpairs']
  dsimp only
  split_ifs
  · refine ⟨Nat.le_refl _, ?_, hwv.unaries, hwv.beam⟩
    rw [Scratch.addWord_eq, Scratch.addWord_eq]
    exact hwv.scratch.reset.updateAll (Scratch.alike_tagEntries hgh _)
  · have htable := PairTable.alike_ofSpan hgh hg hh hcd hspan
    refine ⟨htable.size_le, ?_, hwv.unaries, hwv.beam⟩
    rw [Scratch.addPairs_eq g (PairTable.valid_ofSpan hg c hspan),
      Scratch.addPairs_eq h (PairTable.valid_ofSpan hh d hspan)]
    exact hwv.scratch.reset.updateAll (Scratch.alike_pairEntries hgh hg hh htable)

theorem Alike.finish (hgh : g.Repacked h) (hg : g.Coherent) (hw : w.Sound g)
    (hwv : w.Alike g.packing h.packing v) (merit : Merit) (job : CellJob) (cell cell' : Cell) :
    (w.finish g merit job cell).1.Alike g.packing h.packing (v.finish h merit job cell').1 ∧
      (w.finish g merit job cell).2.Alike g.packing h.packing
        (v.finish h merit job cell').2 := by
  unfold Workspace.finish
  cases job.limit with
  | some width =>
    obtain ⟨hcell, hscratch, hbeam⟩ := hwv.beam.select hgh hg hwv.scratch hw.scratch hw.beam
      merit job.span width job.held cell cell'
    exact ⟨hcell, hscratch, hwv.unaries, hbeam⟩
  | none =>
    have hvalid := (Scratch.entryOf?_addUnaries job.span.stop hg hw.scratch hw.unaries).1
    obtain ⟨hscratch, hunaries⟩ := hwv.scratch.addUnaries hgh job.span.stop hwv.unaries
    exact ⟨hscratch.finalizeInto hvalid cell cell', hscratch.sort, hunaries, hwv.beam⟩

end Workspace

namespace ParseStats

/-- The same counts but for those of child pairs, which are related. -/
structure Alike (R : Nat → Nat → Prop) (s t : ParseStats) : Prop where
  sentenceLength : t.sentenceLength = s.sentenceLength
  cellsVisited : t.cellsVisited = s.cellsVisited
  childPairs : R s.childPairs t.childPairs
  population : t.population = s.population

theorem Alike.merge {s t s' t' : ParseStats} (h : Alike (· ≤ ·) s t)
    (h' : Alike (· ≤ ·) s' t') : Alike (· ≤ ·) (s.merge s') (t.merge t') :=
  ⟨h.sentenceLength, congrArg₂ (· + ·) h.cellsVisited h'.cellsVisited,
    Nat.add_le_add h.childPairs h'.childPairs, congrArg₂ (· + ·) h.population h'.population⟩

end ParseStats

/-- Filling a cell leads from what is alike to what is alike. -/
theorem Workspace.Alike.fill {g h : Grammar} {c d : Chart} {w v : Workspace}
    (hgh : g.Repacked h) (hg : g.Coherent) (hh : h.Coherent) (hw : w.Sound g) (hv : v.Sound h)
    (hwv : w.Alike g.packing h.packing v) (hcd : c.Alike g.packing h.packing d)
    (words : Array UInt32) (merit : Merit) {job : CellJob} {size : Nat}
    (hspan : job.span.within size = true) :
    let x := w.fill g merit c words job
    let y := v.fill h merit d words job
    x.1.Alike g.packing h.packing y.1 ∧ x.2.1.Alike (· ≤ ·) y.2.1 ∧
      x.2.2.Alike g.packing h.packing y.2.2 := by
  have hw' : ({ w with spare := w.spare.tail } : Workspace).Sound g :=
    ⟨hw.pairs, hw.scratch, hw.unaries, hw.beam⟩
  have hv' : ({ v with spare := v.spare.tail } : Workspace).Sound h :=
    ⟨hv.pairs, hv.scratch, hv.unaries, hv.beam⟩
  have hwv' : ({ w with spare := w.spare.tail } : Workspace).Alike g.packing h.packing
      { v with spare := v.spare.tail } := ⟨hwv.scratch, hwv.unaries, hwv.beam⟩
  obtain ⟨hpairs, hderived⟩ := hwv'.derive hgh hg hh hw' hv' hcd words hspan
  obtain ⟨-, hsound, -⟩ := hw'.derive c words hg hspan
  obtain ⟨hcell, hfinished⟩ :=
    hderived.finish hgh hg hsound merit job (w.spare.headD ∅) (v.spare.headD ∅)
  unfold Workspace.fill
  dsimp only
  exact ⟨hcell, ⟨rfl, rfl, hpairs, hcell.size⟩, hfinished⟩

/-! ## Trees -/

namespace Chart

variable {g h : Grammar} {c d : Chart}

/-- Trees are read off alike charts in the same way. -/
theorem Alike.treeWithin (hgh : g.Repacked h) (hcd : c.Alike g.packing h.packing d)
    (overruns : Nat) (span : Span) (nt : UInt16) (unaries : Nat) :
    d.treeWithin h overruns span nt unaries = c.treeWithin g overruns span nt unaries := by
  have hholds : d.holds span = c.holds span := by
    unfold holds
    rw [hcd.size]
  have hentry := (hcd.cell span).get? nt
  rw [Chart.treeWithin, Chart.treeWithin, hholds, hgh.size_eq]
  cases c.holds span with
  | false => rfl
  | true =>
    rw [if_pos rfl, if_pos rfl]
    generalize (c.cell span).get? nt = x at hentry ⊢
    generalize (d.cell span).get? nt = y at hentry ⊢
    cases hentry with
    | none => rfl
    | @some e e' he =>
      dsimp only
      rw [he.midpoint]
      have hchildren := he.children
      generalize e.children = children at hchildren ⊢
      generalize e'.children = children' at hchildren ⊢
      cases hchildren with
      | lexical word => rfl
      | unary child =>
        cases unaries with
        | zero => rfl
        | succ unaries =>
          dsimp only
          rw [Alike.treeWithin hgh hcd overruns span child unaries]
      | @binary key key' pair hkey hkey' =>
        obtain ⟨left, right⟩ := pair
        dsimp only
        rw [hkey, hkey']
        dsimp only
        split_ifs with hinside
        · have hstart := UInt16.lt_iff_toNat_lt.1 hinside.1
          have hstop := UInt16.lt_iff_toNat_lt.1 hinside.2
          rw [Alike.treeWithin hgh hcd overruns ⟨span.start, e.midpoint⟩ left g.size,
            Alike.treeWithin hgh hcd overruns ⟨e.midpoint, span.stop⟩ right g.size]
        · rfl
        · cases overruns with
          | zero => rfl
          | succ overruns =>
            dsimp only
            rw [Alike.treeWithin hgh hcd overruns ⟨span.start, e.midpoint⟩ left g.size]
termination_by (overruns, span.stop.toNat - span.start.toNat, unaries)
decreasing_by
  · exact Prod.Lex.right _ (Prod.Lex.left _ _ (by omega))
  · exact Prod.Lex.right _ (Prod.Lex.left _ _ (by omega))
  · exact Prod.Lex.left _ _ (by omega)
  · exact Prod.Lex.right _ (Prod.Lex.right _ (by omega))

theorem Alike.tree (hgh : g.Repacked h) (hcd : c.Alike g.packing h.packing d) (span : Span)
    (nt : UInt16) : d.tree h span nt = c.tree g span nt := by
  unfold Chart.tree
  rw [hcd.treeWithin hgh, hcd.size, hgh.size_eq]

theorem Alike.top? (hcd : c.Alike g.packing h.packing d) :
    Option.Rel (Cell.Alike g.packing h.packing) c.top? d.top? := by
  unfold Chart.top? whole
  rw [hcd.size]
  split_ifs
  · exact .some (hcd.cell _)
  · exact .none

end Chart

/-! ## Sentences -/

/-- The results of a sentence are the same but for the child pairs that were found. -/
structure ParseResult.Alike (R : Nat → Nat → Prop) (x y : ParseResult) : Prop where
  tree : y.tree = x.tree
  inside : y.inside = x.inside
  stats : x.stats.Alike R y.stats

/-- Both outcomes are one error, or results that are related. -/
inductive Outcome.Rel {α : Type} (R : α → α → Prop) :
    Except ParseError α → Except ParseError α → Prop
  | ok {x y : α} (h : R x y) : Rel R (.ok x) (.ok y)
  | error (e : ParseError) : Rel R (.error e) (.error e)

namespace Parser

/-- Two parsers of one source that treat sentences alike and have alike charts and tables. -/
structure Alike (p q : Parser) : Prop where
  grammar : p.grammar.Repacked q.grammar
  options : q.options = p.options
  vocabulary : q.vocabulary = p.vocabulary
  chart : p.chart.Alike p.grammar.packing q.grammar.packing q.chart
  workspace : p.workspace.Alike p.grammar.packing q.grammar.packing q.workspace

variable {g h : Grammar} {p q : Parser} {tokens : List String} {words : Array UInt32}
  {merit : Merit}

theorem alike_new (hgh : g.Repacked h) (options : ParserOptions) (vocabulary : Vocabulary)
    (threads threads' : Nat) :
    (new g options vocabulary threads).Alike (new h options vocabulary threads') :=
  ⟨hgh, rfl, rfl, ⟨rfl, .nil⟩, Workspace.alike_new hgh⟩

theorem Alike.runJob (h : p.Alike q) (hwords : q.words = p.words) (hg : p.grammar.Coherent)
    (hh : q.grammar.Coherent) (hp : p.Sound) (hq : q.Sound) (merit : Merit) {job : CellJob}
    (hjob : job.span.within p.chart.size = true) :
    (p.runJob merit job).1.Alike (· ≤ ·) (q.runJob merit job).1 ∧
      (p.runJob merit job).2.Alike (q.runJob merit job).2 := by
  obtain ⟨hcell, hstats, hworkspace⟩ := h.workspace.fill h.grammar hg hh hp.workspace hq.workspace
    h.chart p.words merit hjob
  unfold Parser.runJob
  rw [hwords]
  exact ⟨hstats, h.grammar, h.options, h.vocabulary, h.chart.replace job.span hcell,
    hworkspace.scratch, hworkspace.unaries, hworkspace.beam⟩

/-- Without a limit on the time two runs keep in step, whatever their clocks show. -/
theorem Alike.runSerial (h : p.Alike q) (hwords : q.words = p.words) (hg : p.grammar.Coherent)
    (hh : q.grammar.Coherent) (hp : p.Sound) (hq : q.Sound)
    (htime : p.options.timeLimit = none) (merit : Merit) (clock clock' : Clock)
    {jobs : List CellJob} (hjobs : ∀ job ∈ jobs, job.span.within p.chart.size = true)
    (looks : Nat) {stats stats' : ParseStats} (hstats : stats.Alike (· ≤ ·) stats') :
    Outcome.Rel (ParseStats.Alike (· ≤ ·)) (p.runSerial merit clock looks jobs stats).1
        (q.runSerial merit clock' looks jobs stats').1 ∧
      (p.runSerial merit clock looks jobs stats).2.Alike
        (q.runSerial merit clock' looks jobs stats').2 := by
  induction jobs generalizing p q looks stats stats' with
  | nil => exact ⟨.ok hstats, h⟩
  | cons job jobs ih =>
    have hjob := hjobs job List.mem_cons_self
    have hjob' : job.span.within q.chart.size = true := by
      rw [h.chart.size]
      exact hjob
    obtain ⟨hmore, hnext⟩ := h.runJob hwords hg hh hp hq merit hjob
    obtain ⟨hsound, hkept, -⟩ := runJob_keeps merit hg hp hjob
    obtain ⟨hsound', hkept', -⟩ := runJob_keeps merit hh hq hjob'
    unfold Parser.runSerial
    rw [checkTime_of_unlimited htime, checkTime_of_unlimited (by rw [h.options]; exact htime)]
    refine ih hnext ?_ ?_ ?_ hsound hsound' ?_ (fun other hother => ?_) _ (hstats.merge hmore)
    · rw [hkept.words, hkept'.words, hwords]
    · rw [hkept.grammar]
      exact hg
    · rw [hkept'.grammar]
      exact hh
    · rw [hkept.options]
      exact htime
    · rw [hkept.size]
      exact hjobs other (List.mem_cons_of_mem _ hother)

theorem Alike.rejects? (h : p.Alike q) (tokens : List String) :
    q.rejects? tokens = p.rejects? tokens := by
  unfold Parser.rejects?
  rw [h.options, h.vocabulary, h.grammar.lexicon]

theorem Alike.accepts (h : p.Alike q) (haccepts : p.Accepts tokens words) :
    q.Accepts tokens words := by
  refine ⟨haccepts.nonempty, ?_, ?_⟩
  · rw [h.options]
    exact haccepts.length_le
  · rw [h.vocabulary, h.grammar.lexicon]
    exact haccepts.words

theorem Alike.jobs_eq (h : p.Alike q) (length : Nat) (schedule : Schedule) :
    q.jobs length schedule = p.jobs length schedule := by
  unfold Parser.jobs
  rw [h.options]

theorem Alike.begin (h : p.Alike q) (haccepts : p.Accepts tokens words) :
    (p.begin tokens words).Alike (q.begin tokens words) :=
  ⟨h.grammar, h.options, h.vocabulary, Chart.alike_clear _ _ haccepts.length_le_maximum,
    h.workspace⟩

/-- A sentence is rejected by both parsers for the same reason, or fills alike charts. -/
theorem Alike.fillChart (h : p.Alike q) (hg : p.grammar.Coherent) (hh : q.grammar.Coherent)
    (hp : p.Sound) (hq : q.Sound) (hserial : p.options.parallel = false)
    (htime : p.options.timeLimit = none) (tokens : List String) (schedule : Schedule)
    (merit : Merit) (clock clock' : Clock) :
    let x := p.fillChart tokens schedule merit clock
    let y := q.fillChart tokens schedule merit clock'
    Outcome.Rel (ParseStats.Alike (· ≤ ·)) x.1 y.1 ∧ x.2.2.Alike y.2.2 := by
  cases hreject : p.rejects? tokens with
  | some e =>
    obtain ⟨words, heq⟩ := fillChart_rejected schedule merit clock hreject
    obtain ⟨words', heq'⟩ :=
      fillChart_rejected schedule merit clock' ((h.rejects? tokens).trans hreject)
    rw [heq, heq']
    exact ⟨.error e, h.grammar, h.options, h.vocabulary,
      Chart.alike_clear _ _ (Nat.zero_le _), h.workspace⟩
  | none =>
    obtain ⟨words, haccepts⟩ := rejects?_eq_none.1 hreject
    have hserial' : q.options.parallel = false := by
      rw [h.options]
      exact hserial
    rw [haccepts.fillChart_eq, (h.accepts haccepts).fillChart_eq, h.jobs_eq]
    dsimp only
    rw [run_of_serial (p := p.begin tokens words) hserial,
      run_of_serial (p := q.begin tokens words) hserial']
    exact (h.begin haccepts).runSerial rfl hg hh (begin_keeps hp tokens words).1
      (begin_keeps hq tokens words).1 htime merit clock clock'
      (jobs_within haccepts.toNat_length) 0 ⟨rfl, rfl, Nat.le_refl _, rfl⟩

/-- The same is read off alike charts. -/
theorem Alike.extract (h : p.Alike q) (tokens : List String) {R : Nat → Nat → Prop}
    {stats stats' : ParseStats} (hstats : stats.Alike R stats') :
    Outcome.Rel (ParseResult.Alike R) (p.extract tokens stats) (q.extract tokens stats') := by
  have htop : Option.Rel (ChartEntry.Alike p.grammar.packing q.grammar.packing)
      (p.chart.top?.bind (·.get? p.grammar.start))
      (q.chart.top?.bind (·.get? p.grammar.start)) := by
    have htop := h.chart.top?
    generalize p.chart.top? = x at htop ⊢
    generalize q.chart.top? = y at htop ⊢
    cases htop with
    | none => exact .none
    | some hcell => exact hcell.get? _
  have hlabel : q.grammar.label = p.grammar.label := by
    funext nt
    unfold Grammar.label Grammar.label?
    rw [h.grammar.labels]
  have hwhole : q.chart.whole = p.chart.whole := by
    unfold Chart.whole
    rw [h.chart.size]
  unfold Parser.extract
  dsimp only
  rw [h.grammar.start, hlabel, hwhole, h.chart.tree h.grammar]
  generalize p.chart.top?.bind (·.get? p.grammar.start) = x at htop ⊢
  generalize q.chart.top?.bind (·.get? p.grammar.start) = y at htop ⊢
  cases htop with
  | none => exact .error _
  | some hentry =>
    cases p.chart.tree p.grammar p.chart.whole p.grammar.start with
    | error fault => exact .error _
    | ok tree => exact .ok ⟨rfl, hentry.inside, hstats⟩

theorem Alike.parseWith (h : p.Alike q) (hg : p.grammar.Coherent) (hh : q.grammar.Coherent)
    (hp : p.Sound) (hq : q.Sound) (hserial : p.options.parallel = false)
    (htime : p.options.timeLimit = none) (tokens : List String) (schedule : Schedule)
    (merit : Merit) (clock clock' : Clock) :
    Outcome.Rel (ParseResult.Alike (· ≤ ·)) (p.parseWith tokens schedule merit clock).1
      (q.parseWith tokens schedule merit clock').1 := by
  obtain ⟨houtcome, hleft⟩ :=
    h.fillChart hg hh hp hq hserial htime tokens schedule merit clock clock'
  rw [parseWith_fst, parseWith_fst]
  generalize (p.fillChart tokens schedule merit clock).1 = x at houtcome ⊢
  generalize (q.fillChart tokens schedule merit clock').1 = y at houtcome ⊢
  cases houtcome with
  | ok hstats => exact hleft.extract tokens hstats
  | error e => exact .error e

/-! ## Two packings of one source -/

/-- A parser of each of two grammars, made with the same options and given the same sentences. -/
inductive Companions (g h : Grammar) : Parser → Parser → Prop
  | new (options : ParserOptions) (vocabulary : Vocabulary) (threads threads' : Nat) :
      Companions g h (Parser.new g options vocabulary threads)
        (Parser.new h options vocabulary threads')
  | parse {p q : Parser} (hpq : Companions g h p q) (tokens : List String) (schedule : Schedule)
      (merit : Merit) (clock clock' : Clock) :
      Companions g h (p.parseWith tokens schedule merit clock).2.2
        (q.parseWith tokens schedule merit clock').2.2

theorem Companions.symm (hpq : Companions g h p q) : Companions h g q p := by
  induction hpq with
  | new options vocabulary threads threads' => exact .new options vocabulary threads' threads
  | parse _ tokens schedule merit clock clock' ih =>
    exact .parse ih tokens schedule merit clock' clock

theorem Companions.reached (hpq : Companions g h p q) : Reached g (fun _ => True) p := by
  induction hpq with
  | new options vocabulary threads threads' => exact .new options vocabulary threads
  | parse _ tokens schedule merit clock clock' ih => exact .parse ih tokens schedule trivial clock

theorem Companions.options_eq (hpq : Companions g h p q) (hg : g.Coherent) (hh : h.Coherent) :
    q.options = p.options := by
  induction hpq with
  | new options vocabulary threads threads' => rfl
  | parse hpq tokens schedule merit clock clock' ih =>
    obtain ⟨rfl, hp⟩ := hpq.reached.sound hg
    obtain ⟨rfl, hq⟩ := hpq.symm.reached.sound hh
    rw [parseWith_snd, parseWith_snd, (fillChart_keeps hg hp tokens schedule merit clock).2.2.1,
      (fillChart_keeps hh hq tokens schedule merit clock').2.2.1]
    exact ih

/-- Parsers that have been given the same sentences stay alike. -/
theorem Companions.alike (hpq : Companions g h p q) (hgh : g.Repacked h) (hg : g.Coherent)
    (hh : h.Coherent) (hserial : p.options.parallel = false)
    (htime : p.options.timeLimit = none) : p.Alike q := by
  induction hpq with
  | new options vocabulary threads threads' =>
    exact alike_new hgh options vocabulary threads threads'
  | @parse p q hpq tokens schedule merit clock clock' ih =>
    obtain ⟨rfl, hp⟩ := hpq.reached.sound hg
    obtain ⟨rfl, hq⟩ := hpq.symm.reached.sound hh
    rw [parseWith_snd] at hserial htime
    rw [(fillChart_keeps hg hp tokens schedule merit clock).2.2.1] at hserial htime
    exact ((ih hserial htime).fillChart hg hh hp hq hserial htime tokens schedule merit clock
      clock').2

/-- What two parsers have in common after a sentence, if the packing of the second accepts no
fewer pairs. -/
theorem Companions.parseWith (hpq : Companions g h p q) (hgh : g.Repacked h) (hg : g.Coherent)
    (hh : h.Coherent) (hserial : p.options.parallel = false)
    (htime : p.options.timeLimit = none) (tokens : List String) (schedule : Schedule)
    (merit : Merit) (clock clock' : Clock) :
    Outcome.Rel (ParseResult.Alike (· ≤ ·)) (p.parseWith tokens schedule merit clock).1
        (q.parseWith tokens schedule merit clock').1 ∧
      Outcome.Rel (ParseStats.Alike (· ≤ ·)) (p.fillChart tokens schedule merit clock).1
        (q.fillChart tokens schedule merit clock').1 ∧
      (p.parseWith tokens schedule merit clock).2.2.chart.Alike g.packing h.packing
        (q.parseWith tokens schedule merit clock').2.2.chart := by
  have halike := hpq.alike hgh hg hh hserial htime
  obtain ⟨rfl, hp⟩ := hpq.reached.sound hg
  obtain ⟨rfl, hq⟩ := hpq.symm.reached.sound hh
  obtain ⟨houtcome, hleft⟩ :=
    halike.fillChart hg hh hp hq hserial htime tokens schedule merit clock clock'
  refine ⟨halike.parseWith hg hh hp hq hserial htime tokens schedule merit clock clock',
    houtcome, ?_⟩
  have hchart := hleft.chart
  rw [(fillChart_keeps hg hp tokens schedule merit clock).2.1,
    (fillChart_keeps hh hq tokens schedule merit clock').2.1] at hchart
  exact hchart

end Parser

/-- How the numbers of child pairs compare that are found under two packings: as many, unless
one of the packings is by shifting, under which there are never fewer. -/
def PackingKind.Compares (kind kind' : PackingKind) (m n : Nat) : Prop :=
  (kind ≠ .shift → kind' ≠ .shift → n = m) ∧ (kind' = .shift → m ≤ n) ∧ (kind = .shift → n ≤ m)

/-- A packing of the second kind accepts the pairs that one of the first kind does. -/
def PackingKind.Below (kind kind' : PackingKind) : Prop := kind ≠ .shift ∨ kind' = .shift

theorem PackingKind.below_total (kind kind' : PackingKind) :
    kind.Below kind' ∨ kind'.Below kind := by
  unfold Below
  tauto

theorem PackingKind.compares_of_le {kind kind' : PackingKind} {m n : Nat}
    (h : kind.Below kind' → m ≤ n) (h' : kind'.Below kind → n ≤ m) : kind.Compares kind' m n :=
  ⟨fun hkind hkind' => Nat.le_antisymm (h' (.inl hkind')) (h (.inl hkind)),
    fun hkind' => h (.inr hkind'), fun hkind => h' (.inr hkind)⟩

section Compares

variable {kind kind' : PackingKind}

theorem ParseStats.Alike.compare {s t : ParseStats} (h : kind.Below kind' → s.Alike (· ≤ ·) t)
    (h' : kind'.Below kind → t.Alike (· ≤ ·) s) : s.Alike (kind.Compares kind') t := by
  have hpairs := PackingKind.compares_of_le (fun hkind => (h hkind).childPairs)
    fun hkind => (h' hkind).childPairs
  rcases PackingKind.below_total kind kind' with hkind | hkind
  · exact ⟨(h hkind).sentenceLength, (h hkind).cellsVisited, hpairs, (h hkind).population⟩
  · exact ⟨(h' hkind).sentenceLength.symm, (h' hkind).cellsVisited.symm, hpairs,
      (h' hkind).population.symm⟩

theorem ParseResult.Alike.compare {x y : ParseResult} (h : kind.Below kind' → x.Alike (· ≤ ·) y)
    (h' : kind'.Below kind → y.Alike (· ≤ ·) x) : x.Alike (kind.Compares kind') y := by
  have hstats := ParseStats.Alike.compare (fun hkind => (h hkind).stats)
    fun hkind => (h' hkind).stats
  rcases PackingKind.below_total kind kind' with hkind | hkind
  · exact ⟨(h hkind).tree, (h hkind).inside, hstats⟩
  · exact ⟨(h' hkind).tree.symm, (h' hkind).inside.symm, hstats⟩

theorem Outcome.Rel.compare {α : Type} {R S : α → α → Prop} {x y : Except ParseError α}
    (h : kind.Below kind' → Rel R x y) (h' : kind'.Below kind → Rel R y x)
    (hcompare : ∀ {x y : α}, (kind.Below kind' → R x y) → (kind'.Below kind → R y x) → S x y) :
    Rel S x y := by
  have hok {x y : α} : Rel R (.ok x) (.ok y) → R x y := fun hxy => by
    cases hxy with
    | ok hxy => exact hxy
  rcases PackingKind.below_total kind kind' with hkind | hkind
  · cases h hkind with
    | ok => exact .ok (hcompare (fun hkind => hok (h hkind)) fun hkind => hok (h' hkind))
    | error e => exact .error e
  · cases h' hkind with
    | ok => exact .ok (hcompare (fun hkind => hok (h hkind)) fun hkind => hok (h' hkind))
    | error e => exact .error e

end Compares

namespace Parser

/-- The packing of a grammar is not observed. Whatever the limits on cells, the schedule and the
figure of merit are, serial parsers of one source under two packings that have been given the
same sentences give the same tree with the same score, or the same error. They visit as many
cells, find as many entries, and leave the same entries in the same cells, with keys that stand
for the same children. Only the child pairs that are found can be more under shift packing. -/
theorem parse_repacked {source : GrammarSource} {kind kind' : PackingKind} {g h : Grammar}
    {p q : Parser} (hcompile : Grammar.compile source kind = .ok g)
    (hcompile' : Grammar.compile source kind' = .ok h) (hpq : Companions g h p q)
    (hserial : p.options.parallel = false) (htime : p.options.timeLimit = none)
    (tokens : List String) (schedule : Schedule) (merit : Merit) (clock clock' : Clock) :
    let r := p.parseWith tokens schedule merit clock
    let r' := q.parseWith tokens schedule merit clock'
    Outcome.Rel (ParseResult.Alike (kind.Compares kind')) r.1 r'.1 ∧
      Outcome.Rel (ParseStats.Alike (kind.Compares kind'))
        (p.fillChart tokens schedule merit clock).1
        (q.fillChart tokens schedule merit clock').1 ∧
      r.2.2.chart.Alike g.packing h.packing r'.2.2.chart := by
  have hg := Grammar.coherent_of_compile hcompile
  have hh := Grammar.coherent_of_compile hcompile'
  have hforth (hkind : kind.Below kind') := hpq.parseWith
    (Grammar.repacked_of_compile hcompile hcompile' hkind) hg hh hserial htime tokens schedule
    merit clock clock'
  have hback (hkind : kind'.Below kind) := hpq.symm.parseWith
    (Grammar.repacked_of_compile hcompile' hcompile hkind) hh hg
    (by rw [hpq.options_eq hg hh]; exact hserial) (by rw [hpq.options_eq hg hh]; exact htime)
    tokens schedule merit clock' clock
  refine ⟨.compare (fun hkind => (hforth hkind).1) (fun hkind => (hback hkind).1)
      ParseResult.Alike.compare,
    .compare (fun hkind => (hforth hkind).2.1) (fun hkind => (hback hkind).2.1)
      ParseStats.Alike.compare, ?_⟩
  rcases PackingKind.below_total kind kind' with hkind | hkind
  · exact (hforth hkind).2.2
  · exact (hback hkind).2.2.symm

/-- Under perfect hashing and under shift packing the sample is parsed alike, also after another
sentence and with narrow cells. -/
theorem parse_repacked_twice : ∃ g h, Grammar.compile (.sample true) .perfectHash = .ok g ∧
    Grammar.compile (.sample true) .shift = .ok h ∧
    let options := { ParserOptions.default with beamWidth := some 2 }
    let p := ((new g options .default 1).parseWith ["a"] .bottomUp .inside .stopped).2.2
    let q := ((new h options .default 1).parseWith ["a"] .bottomUp .inside .stopped).2.2
    let schedule : Schedule := ⟨.bottomUp .fresh, [.widths [(⟨0, 2⟩, 1)]]⟩
    let r := p.parseWith ["a", "a"] schedule .inside .stopped
    let r' := q.parseWith ["a", "a"] schedule .inside .stopped
    Outcome.Rel (ParseResult.Alike (PackingKind.perfectHash.Compares .shift)) r.1 r'.1 ∧
      Outcome.Rel (ParseStats.Alike (PackingKind.perfectHash.Compares .shift))
        (p.fillChart ["a", "a"] schedule .inside .stopped).1
        (q.fillChart ["a", "a"] schedule .inside .stopped).1 ∧
      r.2.2.chart.Alike g.packing h.packing r'.2.2.chart := by
  obtain ⟨g, hcompile, -⟩ := Grammar.exists_sample_under true .perfectHash
  obtain ⟨h, hcompile', -⟩ := Grammar.exists_sample_under true .shift
  refine ⟨g, h, hcompile, hcompile', ?_⟩
  intro options p q schedule
  have hpq : Companions g h p q :=
    .parse (.new options .default 1 1) ["a"] .bottomUp .inside .stopped .stopped
  have hg := Grammar.coherent_of_compile hcompile
  have hunused : Reached g (fun _ => True) (new g options .default 1) := .new options .default 1
  have hoptions : p.options = options :=
    (fillChart_keeps hg (hunused.sound hg).2 ["a"] .bottomUp .inside .stopped).2.2.1
  exact parse_repacked hcompile hcompile' hpq (by rw [hoptions]; rfl) (by rw [hoptions]; rfl)
    ["a", "a"] schedule .inside .stopped .stopped

end Parser
end ChartParsing
