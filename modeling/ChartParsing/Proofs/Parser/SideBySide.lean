import ChartParsing.Proofs.Grammar.Making
import ChartParsing.Proofs.Parser.Sentence

/-!
# Parsing side by side

A run side by side does the jobs of a sentence in the order of their widths, and fills all
cells of one width before it puts any of them on the chart. The order of jobs is not seen on
the chart as long as no span comes after one that contains it, and not in what is counted
either. So it leaves what a run one after the other leaves, unless a selector of one of the
workspaces has kept the merit of an earlier entry.
-/

namespace ChartParsing

theorem ParseStats.merge_right_comm (s t u : ParseStats) :
    (s.merge t).merge u = (s.merge u).merge t := by
  unfold merge
  dsimp only
  rw [Nat.add_right_comm s.cellsVisited, Nat.add_right_comm s.childPairs,
    Nat.add_right_comm s.population]

namespace Chart

open Workspace

variable {jobs jobs' : List CellJob}

/-- The order of orderly jobs is seen neither on the chart nor in what is counted, if the
last job of each span is the same. -/
theorem putAll_perm (g : Grammar) (merit : Merit) (words : Array UInt32) (c d : Chart)
    {size : Nat} (hsize : size ≤ 65535) (hjobs : Orderly size jobs)
    (hjobs' : Orderly size jobs') (hlast : ∀ s, lastAt? s jobs = lastAt? s jobs')
    (hperm : jobs.Perm jobs') (stats : ParseStats) :
    putAll g merit words jobs (c.clear size) = putAll g merit words jobs' (d.clear size) ∧
      statsAlong g merit words jobs (c.clear size) stats =
        statsAlong g merit words jobs' (d.clear size) stats := by
  have hc : (c.clear size).Sized := sized_clear size
  have hd : (d.clear size).Sized := sized_clear size
  obtain ⟨hsized, hkept⟩ := putAll_keeps g merit words hc jobs
  obtain ⟨hsized', hkept'⟩ := putAll_keeps g merit words hd jobs'
  have hsettled := settled_putAll g merit words hc (fun s _ => cell_clear size s) hjobs
  have hsettled' := settled_putAll g merit words hd (fun s _ => cell_clear size s) hjobs'
  have hchart : putAll g merit words jobs (c.clear size) =
      putAll g merit words jobs' (d.clear size) :=
    hsettled.unique hsettled' hlast hsized hsized' (hkept.trans hkept'.symm)
      (by rw [hkept]; exact hsize)
  refine ⟨hchart, ?_⟩
  rw [statsAlong_eq hc hjobs, statsAlong_eq hd hjobs', hchart]
  exact hperm.foldl_eq' (fun a _ b _ stats => ParseStats.merge_right_comm stats _ _) stats

/-- Every job is counted once. -/
theorem cellsVisited_statsAlong {g : Grammar} {merit : Merit} {words : Array UInt32}
    {chart : Chart} (hg : g.Coherent) (hjobs : ∀ job ∈ jobs, job.span.within chart.size = true)
    (stats : ParseStats) : (statsAlong g merit words jobs chart stats).cellsVisited =
      stats.cellsVisited + jobs.length := by
  induction jobs generalizing chart stats with
  | nil => rfl
  | cons job jobs ih =>
    have ih := @ih (put g merit words chart job)
      (fun other hother => hjobs other (List.mem_cons_of_mem _ hother))
      (stats.merge (statsFor g merit chart words job))
    refine ih.trans ?_
    rw [statsFor_eq hg merit chart words (hjobs job List.mem_cons_self), List.length_cons]
    change stats.cellsVisited + 1 + jobs.length = _
    omega

end Chart

namespace Parser

open Chart

variable {p q : Parser} {tokens : List String} {words : Array UInt32} {merit : Merit}
  {jobs : List CellJob}

/-! ## The order of widths -/

theorem lastAt?_sortJobs (s : Span) (jobs : List CellJob) :
    lastAt? s (sortJobs jobs) = lastAt? s jobs := by
  unfold lastAt? sortJobs
  rw [filter_mergeSort width_trans width_total]
  intro a b ha hb
  rw [of_decide_eq_true ha, of_decide_eq_true hb]
  exact decide_eq_true (UInt16.le_refl _)

theorem orderly_sortJobs {size : Nat} (h : ∀ job ∈ jobs, job.span.within size = true) :
    Orderly size (sortJobs jobs) := by
  have hsorted : ∀ job ∈ sortJobs jobs, job.span.within size = true :=
    fun job hjob => h job ((sortJobs_perm jobs).mem_iff.1 hjob)
  refine ⟨hsorted, (pairwise_sortJobs jobs).imp_of_mem fun {a b} ha hb hab => ?_⟩
  exact not_inside_of_width_le (hsorted a ha) (hsorted b hb) hab

/-! ## Twins -/

/-- Two parsers that only differ in how they fill the cells of a sentence, one after the
other or side by side, and in what they have done before. -/
structure Twins (p q : Parser) : Prop where
  grammar : q.grammar = p.grammar
  vocabulary : q.vocabulary = p.vocabulary
  serial : p.options.parallel = false
  options : q.options = { p.options with parallel := true }

theorem Twins.parallel (h : Twins p q) : q.options.parallel = true := by
  rw [h.options]

theorem Twins.accepts (h : Twins p q) (haccepts : p.Accepts tokens words) :
    q.Accepts tokens words := by
  refine ⟨haccepts.nonempty, ?_, ?_⟩
  · rw [h.options]
    exact haccepts.length_le
  · rw [h.grammar, h.vocabulary]
    exact haccepts.words

theorem Twins.jobs_eq (h : Twins p q) (length : Nat) (schedule : Schedule) :
    q.jobs length schedule = p.jobs length schedule := by
  unfold Parser.jobs
  rw [h.options]
  rfl

/-- Without a limit on the time all jobs are done, in the order in which the parser
arranges them. -/
theorem run_eq_putAll (hg : p.grammar.Coherent) (hp : p.Sound)
    (htime : p.options.timeLimit = none) (tokens : List String) (words : Array UInt32)
    (hjobs : ∀ job ∈ jobs, job.span.within tokens.length = true)
    (hclean : Clean merit jobs p.Fresh) (clock : Clock) (stats : ParseStats) :
    let start := (p.chart.clear 0).clear tokens.length
    let ran := (p.begin tokens words).run merit clock jobs stats
    ran.1 = .ok (statsAlong p.grammar merit words (p.arrange jobs) start stats) ∧
      ran.2.chart = putAll p.grammar merit words (p.arrange jobs) start ∧
      ran.2.grammar = p.grammar := by
  obtain ⟨hbegin, hfresh⟩ := begin_keeps hp tokens words
  have hran := run_ran (p := p.begin tokens words) merit clock stats hg hbegin hjobs
    (hclean.of_mem (fun _ hjob => hjob) hfresh)
  obtain ⟨-, hkept, -⟩ := run_keeps (p := p.begin tokens words) merit clock jobs stats hg
    hbegin hjobs
  have hlimit : (p.begin tokens words).options.timeLimit = none := htime
  rw [hlimit] at hran
  obtain ⟨hchart, houtcome⟩ := hran.eq_of_unlimited
  exact ⟨houtcome, hchart, hkept.grammar⟩

/-- Twins that do the same jobs in their own ways leave the same. -/
theorem Twins.run_eq (h : Twins p q) (hg : p.grammar.Coherent) (hp : p.Sound) (hq : q.Sound)
    (htime : p.options.timeLimit = none) (tokens : List String) (words : Array UInt32)
    (hlength : tokens.length ≤ 65535) (hjobs : Orderly tokens.length jobs)
    (hclean : Clean merit jobs (p.Fresh ∧ q.Fresh)) (clock clock' : Clock) (stats : ParseStats) :
    let serial := (p.begin tokens words).run merit clock jobs stats
    let parallel := (q.begin tokens words).run merit clock' jobs stats
    parallel.1 = serial.1 ∧ parallel.2.chart = serial.2.chart ∧
      parallel.2.grammar = serial.2.grammar := by
  obtain ⟨houtcome, hchart, hgrammar⟩ := run_eq_putAll hg hp htime tokens words hjobs.within
    (hclean.of_mem (fun _ hjob => hjob) fun h => h.1) clock stats
  obtain ⟨houtcome', hchart', hgrammar'⟩ := run_eq_putAll (h.grammar ▸ hg) hq
    (by rw [h.options]; exact htime) tokens words hjobs.within
    (hclean.of_mem (fun _ hjob => hjob) fun h => h.2) clock' stats
  obtain ⟨hsame, hstats⟩ := putAll_perm p.grammar merit words (q.chart.clear 0) (p.chart.clear 0)
    hlength (orderly_sortJobs hjobs.within) hjobs (fun s => lastAt?_sortJobs s jobs)
    (sortJobs_perm jobs) stats
  rw [arrange_of_serial h.serial] at houtcome hchart
  rw [arrange_of_parallel h.parallel, h.grammar] at houtcome' hchart'
  dsimp only
  rw [houtcome, houtcome', hchart, hchart', hgrammar, hgrammar', h.grammar, hsame, hstats]
  exact ⟨rfl, rfl, rfl⟩

/-- What is read off a chart depends on the grammar and the chart only. -/
theorem extract_congr (hgrammar : q.grammar = p.grammar) (hchart : q.chart = p.chart)
    (stats : ParseStats) : q.extract tokens stats = p.extract tokens stats := by
  unfold extract
  rw [hgrammar, hchart]

/-- Filling the cells of a sentence side by side leaves the chart, the counts and the result
of filling them one after the other, if there is no limit on the time and no span comes after
one that strictly contains it. Either no cell is limited, or the figure of merit does not rank
what is absent above itself and no workspace has kept a merit; for no selection then keeps any.
No job is lost, and if no span comes twice, the entries counted are those on the chart. -/
theorem parallel_eq_serial {source : GrammarSource} {kind : PackingKind} {g : Grammar}
    (hcompile : Grammar.compile source kind = .ok g) (hp : Reached g (fun _ => True) p)
    (hq : Reached g (fun _ => True) q) (htwins : Twins p q) (htime : p.options.timeLimit = none)
    (haccepts : p.Accepts tokens words) (merit : Merit)
    (hwithin : ∀ job ∈ jobs, job.span.within tokens.length = true)
    (horder : Topological (jobs.map (·.span)))
    (hclean : Clean merit jobs (p.Fresh ∧ q.Fresh)) (clock clock' : Clock) :
    let stats := { ParseStats.zero with sentenceLength := tokens.length }
    let serial := (p.begin tokens words).runSerial merit clock 0 jobs stats
    let parallel := (q.begin tokens words).runParallel merit clock' jobs stats
    parallel.2.chart = serial.2.chart ∧
      (∃ counted, parallel.1 = .ok counted ∧ serial.1 = .ok counted ∧
        parallel.2.extract tokens counted = serial.2.extract tokens counted ∧
        counted.cellsVisited = jobs.length ∧
        ((jobs.map (·.span)).Nodup → counted.population = serial.2.chart.population)) ∧
      ∀ schedule, (p.jobs tokens.length schedule).1 = jobs →
        (q.fillChart tokens schedule merit clock').1 =
            (p.fillChart tokens schedule merit clock).1 ∧
          (q.parseWith tokens schedule merit clock').1 =
            (p.parseWith tokens schedule merit clock).1 ∧
          (q.parseWith tokens schedule merit clock').2.2.chart =
            (p.parseWith tokens schedule merit clock).2.2.chart := by
  have hg := Grammar.coherent_of_compile hcompile
  obtain ⟨rfl, hsound⟩ := hp.sound hg
  obtain ⟨-, hsound'⟩ := hq.sound hg
  have horderly : Orderly tokens.length jobs := ⟨hwithin, List.pairwise_map.1 horder⟩
  intro stats serial parallel
  have hserial : (p.begin tokens words).run merit clock jobs stats = serial :=
    run_of_serial (p := p.begin tokens words) htwins.serial jobs stats
  have hparallel : (q.begin tokens words).run merit clock' jobs stats = parallel :=
    run_of_parallel (p := q.begin tokens words) htwins.parallel jobs stats
  obtain ⟨houtcome, hchart, hgrammar⟩ := htwins.run_eq hg hsound hsound' htime tokens words
    haccepts.length_le_maximum horderly hclean clock clock' stats
  obtain ⟨hdone, hput, -⟩ := run_eq_putAll hg hsound htime tokens words hwithin
    (hclean.of_mem (fun _ hjob => hjob) fun h => h.1) clock stats
  rw [hserial, hparallel] at houtcome hchart hgrammar
  rw [hserial, arrange_of_serial htwins.serial] at hdone hput
  refine ⟨hchart, ⟨_, houtcome.trans hdone, hdone, extract_congr hgrammar hchart _, ?_,
    fun hnodup => ?_⟩, fun schedule hjobs => ?_⟩
  · rw [cellsVisited_statsAlong hg hwithin]
    exact Nat.zero_add _
  · rw [hput]
    have hcount := population_putAll hg merit words
      (sized_clear (c := p.chart.clear 0) tokens.length) (fun s _ => cell_clear tokens.length s)
      horderly hnodup stats
    rw [population_clear] at hcount
    exact hcount.trans (Nat.zero_add _)
  · obtain ⟨hran, hleft⟩ := haccepts.fillChart_run schedule merit clock
    obtain ⟨hran', hleft'⟩ := (htwins.accepts haccepts).fillChart_run schedule merit clock'
    rw [hjobs, hserial] at hran hleft
    rw [htwins.jobs_eq, hjobs, hparallel] at hran' hleft'
    rw [parseWith_fst, parseWith_fst, parseWith_snd, parseWith_snd, hran, hran', hleft, hleft',
      houtcome, hdone]
    exact ⟨rfl, extract_congr hgrammar hchart _, hchart⟩

/-- Jobs of two words, of which one is done twice. -/
def repeatedJobs : List CellJob :=
  [⟨⟨1, 2⟩, some 2, 0⟩, ⟨⟨0, 1⟩, some 1, 0⟩, ⟨⟨0, 1⟩, some 2, 1⟩, ⟨⟨0, 2⟩, some 1, 0⟩]

theorem within_repeatedJobs : ∀ job ∈ repeatedJobs, job.span.within 2 = true := by decide

theorem topological_repeatedJobs : Topological (repeatedJobs.map (·.span)) := by
  unfold Topological Span.Inside
  decide

theorem parallel_eq_serial_twice : ∃ g, Grammar.compile (.sample true) .shift = .ok g ∧
    let options := { ParserOptions.default with beamWidth := some 2 }
    let p := new g options .default 1
    let unused := new g { options with parallel := true } .default 2
    let q := (unused.parseWith ["a", "a"] .bottomUp .inside .stopped).2.2
    let stats := { ParseStats.zero with sentenceLength := 2 }
    let serial := (p.begin ["a", "a"] #[0, 0]).runSerial .inside .stopped 0 repeatedJobs stats
    let parallel := (q.begin ["a", "a"] #[0, 0]).runParallel .inside .stopped repeatedJobs stats
    parallel.2.chart = serial.2.chart ∧ ∃ counted, parallel.1 = .ok counted ∧
      serial.1 = .ok counted ∧ counted.cellsVisited = 4 := by
  obtain ⟨g, hcompile, hlexicon, -⟩ := Grammar.exists_sample true
  have hg := Grammar.coherent_of_compile hcompile
  refine ⟨g, hcompile, ?_⟩
  intro options p unused q stats serial parallel
  have haccepts : p.Accepts ["a", "a"] #[0, 0] :=
    accepts_twice hlexicon (by change 2 ≤ min 200 65535; decide)
  have hp (allowed : Merit → Prop) : Reached g allowed p := .new _ _ _
  have hq (allowed : Merit → Prop) (h : allowed .inside) : Reached g allowed q :=
    .parse (.new _ _ _) _ _ h _
  have hfresh : p.Fresh ∧ q.Fresh :=
    ⟨(hp Merit.Grounded).fresh hg fun _ h => h,
      (hq Merit.Grounded Merit.grounded_inside).fresh hg fun _ h => h⟩
  have htwins : Twins p q := by
    have hunused : Reached g (fun _ => True) unused := .new _ _ _
    obtain ⟨-, hgrammar, hoptions, hvocabulary, -⟩ := fillChart_keeps (p := unused) hg
      (hunused.sound hg).2 ["a", "a"] .bottomUp .inside .stopped
    exact ⟨hgrammar, hvocabulary, rfl, hoptions⟩
  obtain ⟨hchart, ⟨counted, hparallel, hserial, -, hvisited, -⟩, -⟩ :=
    parallel_eq_serial hcompile (hp _) (hq _ trivial) htwins rfl haccepts .inside
      within_repeatedJobs topological_repeatedJobs (Or.inr ⟨Merit.grounded_inside, hfresh⟩)
      .stopped .stopped
  exact ⟨hchart, counted, hparallel, hserial, hvisited⟩

end Parser
end ChartParsing
