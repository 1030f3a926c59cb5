import ChartParsing.Proofs.Parser.SideBySide

/-!
# Cells laid down with any merits

A run that finds merits in its selectors can fill its cells otherwise than with new
workspaces. Still each cell that it puts in place is one that some workspace in order fills
from the chart at that time, also when cells of one width are filled side by side. What is
true of every cell so filled, and depends on the chart only as filling does, is then true of
every cell of the chart that a parser leaves.
-/

namespace ChartParsing

namespace Parser

open Workspace Chart

/-- The cell is one that a workspace in order fills for a job, whatever merits it has. -/
def FilledFrom (g : Grammar) (merit : Merit) (chart : Chart) (words : Array UInt32)
    (job : CellJob) (cell : Cell) : Prop :=
  ∃ w : Workspace, w.Sound g ∧ cell = (w.fill g merit chart words job).1

/-- A run of jobs from a chart, with its outcome and the chart it leaves, that puts a filled
cell in place for each job until it is through or given up. -/
inductive Laid (g : Grammar) (merit : Merit) (words : Array UInt32) :
    List CellJob → Chart → Except ParseError ParseStats → Chart → Prop
  | done {chart stats} : Laid g merit words [] chart (.ok stats) chart
  | cancelled {job jobs chart elapsed} :
      Laid g merit words (job :: jobs) chart (.error (.cancelled elapsed)) chart
  | step {job jobs chart cell outcome after} (hcell : FilledFrom g merit chart words job cell)
      (h : Laid g merit words jobs (chart.replace job.span cell).2 outcome after) :
      Laid g merit words (job :: jobs) chart outcome after

variable {g : Grammar} {merit : Merit} {chart after : Chart} {words : Array UInt32}
  {jobs : List CellJob} {outcome : Except ParseError ParseStats} {p : Parser} {clock : Clock}

theorem runSerial_laid (looks : Nat) (stats : ParseStats) (hg : p.grammar.Coherent)
    (hp : p.Sound) (hjobs : ∀ job ∈ jobs, job.span.within p.chart.size = true) :
    Laid p.grammar merit p.words jobs p.chart (p.runSerial merit clock looks jobs stats).1
      (p.runSerial merit clock looks jobs stats).2.chart := by
  induction jobs generalizing p looks stats with
  | nil => exact .done
  | cons job jobs ih =>
    unfold runSerial
    rcases checkTime_eq p.options (clock looks) with hok | ⟨-, herror⟩
    · rw [hok]
      have hjob := hjobs job List.mem_cons_self
      obtain ⟨hsound, hkept, -⟩ := runJob_keeps merit hg hp hjob
      have ih := ih (looks + 1) (stats.merge (p.runJob merit job).1)
        (by rw [hkept.grammar]; exact hg) hsound fun other hother => by
          rw [hkept.size]
          exact hjobs other (List.mem_cons_of_mem _ hother)
      rw [hkept.grammar, hkept.words] at ih
      exact .step ⟨p.workspace, hp.workspace, rfl⟩ ih
    · rw [herror]
      exact .cancelled

/-! ## Side by side -/

/-- Cells that were filled for jobs from one chart. -/
def AllFilledFrom (g : Grammar) (merit : Merit) (chart : Chart) (words : Array UInt32) :
    List CellJob → List FilledCell → Prop :=
  List.Forall₂ fun job f => f.job = job ∧ FilledFrom g merit chart words job f.cell

theorem foldl_fillNext_filledFrom (merit : Merit) (chart : Chart) (words : Array UInt32)
    (hg : g.Coherent) {w : Workspace} (hw : w.Sound g) {size : Nat}
    (hjobs : ∀ job ∈ jobs, job.span.within size = true) (filled : List FilledCell) :
    ∃ more, AllFilledFrom g merit chart words jobs more ∧
      (jobs.foldl (fillNext g merit chart words) (filled, w)).1 = more.reverse ++ filled := by
  induction jobs generalizing w filled with
  | nil => exact ⟨[], .nil, rfl⟩
  | cons job jobs ih =>
    obtain ⟨-, hsound, -⟩ := hw.fill_keeps chart words hg merit (hjobs job List.mem_cons_self)
    obtain ⟨more, hmore, heq⟩ := ih hsound
      (fun other hother => hjobs other (List.mem_cons_of_mem _ hother))
      (⟨job, (w.fill g merit chart words job).1, (w.fill g merit chart words job).2.1⟩ :: filled)
    refine ⟨⟨job, (w.fill g merit chart words job).1, (w.fill g merit chart words job).2.1⟩ :: more,
      .cons ⟨rfl, w, hw, rfl⟩ hmore, heq.trans ?_⟩
    rw [List.reverse_cons, List.append_assoc]
    rfl

theorem fillAll_filledFrom (hg : g.Coherent) {w : Workspace} (hw : w.Sound g) {size : Nat}
    (hjobs : ∀ job ∈ jobs, job.span.within size = true) :
    AllFilledFrom g merit chart words jobs (fillAll g merit chart words jobs w).1 := by
  obtain ⟨more, hmore, heq⟩ :=
    foldl_fillNext_filledFrom merit chart words hg hw hjobs []
  have hfill : (fillAll g merit chart words jobs w).1 =
      (jobs.foldl (fillNext g merit chart words) ([], w)).1.reverse := rfl
  rw [hfill, heq, List.append_nil, List.reverse_reverse]
  exact hmore

/-- Runs that are shared out among enough workers are all filled. -/
theorem flatMap_fillAll_filledFrom (merit : Merit) (chart : Chart) (words : Array UInt32)
    (hg : g.Coherent) {runs : List (List CellJob)} {workers : List Workspace}
    (hlength : runs.length ≤ workers.length) (hsound : ∀ w ∈ workers, w.Sound g) {size : Nat}
    (hjobs : ∀ run ∈ runs, ∀ job ∈ run, job.span.within size = true) :
    AllFilledFrom g merit chart words runs.flatten
      (((runs.zip workers).map fun (run, w) =>
        fillAll g merit chart words run w).flatMap (·.1)) := by
  induction runs generalizing workers with
  | nil => exact .nil
  | cons run runs ih =>
    cases workers with
    | nil => exact absurd hlength (Nat.not_succ_le_zero _)
    | cons w workers =>
      have hrest := ih (Nat.le_of_succ_le_succ hlength)
        (fun v hv => hsound v (List.mem_cons_of_mem _ hv))
        fun run' hrun' => hjobs run' (List.mem_cons_of_mem _ hrun')
      exact List.rel_append (fillAll_filledFrom hg (hsound w List.mem_cons_self)
        (hjobs run List.mem_cons_self)) hrest

/-- Cells filled before any was put in place, of jobs none of which is strictly inside
another, are also filled from the chart as it is when each is put in place. -/
theorem Laid.commitCells {start : Chart} {filled : List FilledCell} {rest : List CellJob}
    (hfilled : AllFilledFrom g merit start words jobs filled)
    (hjobs : ∀ job ∈ jobs, job.span.within chart.size = true)
    (hapart : jobs.Pairwise fun a b => ¬a.span.Inside b.span)
    (hsame : ∀ job ∈ jobs, ∀ w : Workspace,
      w.fill g merit start words job = w.fill g merit chart words job) {stats : ParseStats}
    (h : Laid g merit words rest (Parser.commitCells filled (chart, stats)).1 outcome after) :
    Laid g merit words (jobs ++ rest) chart outcome after := by
  induction hfilled generalizing chart stats with
  | nil => exact h
  | @cons job f jobs filled hcell hfilled ih =>
    obtain ⟨hjob, hrest⟩ := List.pairwise_cons.1 hapart
    obtain ⟨rfl, w, hw, hcell⟩ := hcell
    have hwithin := hjobs f.job List.mem_cons_self
    rw [hsame f.job List.mem_cons_self] at hcell
    refine .step ⟨w, hw, hcell⟩
      (ih (fun other hother => hjobs other (List.mem_cons_of_mem _ hother)) hrest
        (fun other hother w => ?_) h)
    rw [fill_replace g merit words _ hwithin (hjobs other (List.mem_cons_of_mem _ hother))
      (hjob other hother)]
    exact hsame other (List.mem_cons_of_mem _ hother) w

theorem runWidth_laid (hg : p.grammar.Coherent) (hp : p.Sound) (hworkers : p.workers ≠ #[])
    (hnil : jobs ≠ []) {stats : ParseStats}
    (hjobs : ∀ job ∈ jobs, job.span.within p.chart.size = true)
    (hapart : jobs.Pairwise fun a b => ¬a.span.Inside b.span) {rest : List CellJob}
    (h : Laid p.grammar merit p.words rest (p.runWidth merit jobs stats).2.chart outcome after) :
    Laid p.grammar merit p.words (jobs ++ rest) p.chart outcome after := by
  have hworkers' : p.workers.toList ≠ [] := fun h => hworkers (Array.toList_eq_nil_iff.1 h)
  obtain ⟨hsize, hlength⟩ := length_chunks_workers (List.length_pos_iff.2 hworkers') hnil
  have hfilled := flatMap_fillAll_filledFrom merit p.chart p.words hg hlength
    (fun w hw => hp.workers w (Array.mem_toList_iff.1 hw))
    fun run hrun job hjob => hjobs job (mem_of_mem_chunks hsize hrun hjob)
  rw [flatten_chunks hsize] at hfilled
  rw [runWidth_eq] at h
  dsimp only at h
  rw [(commitAll_eq (g := p.grammar) _ _).1] at h
  exact Laid.commitCells hfilled hjobs hapart (fun _ _ _ => rfl) h

theorem runGroups_laid (merit : Merit) (clock : Clock) (looks : Nat) (stats : ParseStats)
    (hg : p.grammar.Coherent) (hp : p.Sound) (hworkers : p.workers ≠ #[])
    {groups : List (List CellJob)} (hnil : ∀ jobs ∈ groups, jobs ≠ [])
    (hjobs : ∀ jobs ∈ groups, ∀ job ∈ jobs, job.span.within p.chart.size = true)
    (hapart : ∀ jobs ∈ groups, jobs.Pairwise fun a b => ¬a.span.Inside b.span) :
    Laid p.grammar merit p.words groups.flatten p.chart
      (p.runGroups merit clock looks groups stats).1
      (p.runGroups merit clock looks groups stats).2.chart := by
  induction groups generalizing p looks stats with
  | nil => exact .done
  | cons jobs groups ih =>
    have hhead := hnil jobs List.mem_cons_self
    have hwithin := hjobs jobs List.mem_cons_self
    rw [List.flatten_cons]
    unfold runGroups
    rcases checkTime_eq p.options (clock looks) with hok | ⟨-, herror⟩
    · rw [hok]
      obtain ⟨hsound, hkept, hnext, -⟩ := runWidth_keeps merit hg hp hworkers hhead stats hwithin
      have ih := ih (looks + 1) (p.runWidth merit jobs stats).1
        (by rw [hkept.grammar]; exact hg) hsound hnext
        (fun other hother => hnil other (List.mem_cons_of_mem _ hother))
        (fun other hother => by rw [hkept.size]; exact hjobs other (List.mem_cons_of_mem _ hother))
        (fun other hother => hapart other (List.mem_cons_of_mem _ hother))
      rw [hkept.grammar, hkept.words] at ih
      exact runWidth_laid hg hp hworkers hhead hwithin (hapart jobs List.mem_cons_self) ih
    · rw [herror]
      cases jobs with
      | nil => exact absurd rfl hhead
      | cons job jobs => exact .cancelled

theorem runParallel_laid (stats : ParseStats) (hg : p.grammar.Coherent) (hp : p.Sound)
    (hjobs : ∀ job ∈ jobs, job.span.within p.chart.size = true) :
    Laid p.grammar merit p.words (sortJobs jobs) p.chart
      (p.runParallel merit clock jobs stats).1
      (p.runParallel merit clock jobs stats).2.chart := by
  obtain ⟨hsound, hkept, hworkers, hchart, -⟩ := hireWorkers_keeps hp
  have hlaid := runGroups_laid merit clock 0 stats
    (by rw [hkept.grammar]; exact hg) hsound hworkers
    (fun _ hgroup => ne_nil_of_mem_groupJobs hgroup)
    (fun group hgroup job hjob => hjobs job (mem_of_mem_groupJobs hgroup hjob))
    fun group hgroup => ?_
  · rw [flatten_groupJobs] at hlaid
    exact hlaid
  · refine (pairwise_of_mem_groupJobs hgroup).imp_of_mem fun {a b} ha hb hab => ?_
    exact not_inside_of_width_le (hjobs b (mem_of_mem_groupJobs hgroup hb))
      (hjobs a (mem_of_mem_groupJobs hgroup ha)) (UInt16.le_of_eq hab.symm)

theorem run_laid (stats : ParseStats) (hg : p.grammar.Coherent) (hp : p.Sound)
    (hjobs : ∀ job ∈ jobs, job.span.within p.chart.size = true) :
    Laid p.grammar merit p.words (p.arrange jobs) p.chart (p.run merit clock jobs stats).1
      (p.run merit clock jobs stats).2.chart := by
  unfold run arrange
  split_ifs
  · exact runParallel_laid stats hg hp hjobs
  · exact runSerial_laid 0 stats hg hp hjobs

/-- The chart of a sentence that is taken on, whatever the parser was used for. -/
theorem Accepts.fillChart_laid {tokens : List String} (schedule : Schedule) (merit : Merit)
    (clock : Clock) (h : p.Accepts tokens words) (hg : p.grammar.Coherent) (hp : p.Sound) :
    Laid p.grammar merit words (p.arrange (p.jobs tokens.length schedule).1)
      ((p.chart.clear 0).clear tokens.length) (p.fillChart tokens schedule merit clock).1
      (p.fillChart tokens schedule merit clock).2.2.chart := by
  have hjobs : ∀ job ∈ (p.jobs tokens.length schedule).1,
      job.span.within (p.begin tokens words).chart.size = true := jobs_within h.toNat_length
  rw [h.fillChart_eq]
  exact run_laid (p := p.begin tokens words) _ hg (begin_keeps hp tokens words).1 hjobs

/-! ## What is true of all cells -/

/-- A property of the cells over the spans of a chart that an empty cell has, and that looks
at no cells but those that the span can be split into. -/
structure Settles (P : Chart → Span → Cell → Prop) : Prop where
  empty : ∀ chart s, P chart s ∅
  congr : ∀ {chart chart' : Chart} {s : Span} {cell : Cell},
    s.within chart.size = true → P chart s cell → (∀ m ∈ s.midpoints,
      chart'.cell ⟨s.start, m⟩ = chart.cell ⟨s.start, m⟩ ∧
        chart'.cell ⟨m, s.stop⟩ = chart.cell ⟨m, s.stop⟩) → P chart' s cell

variable {P : Chart → Span → Cell → Prop}

/-- All cells keep the property when one that has it is put in place, if the cells whose spans
contain its own are still empty. -/
theorem Settles.replace (hP : Settles P) (hsized : chart.Sized) {span : Span}
    (hspan : span.within chart.size = true) {cell : Cell} (hcell : P chart span cell)
    (hempty : ∀ s, s.within chart.size = true → span.Inside s → chart.cell s = ∅)
    (h : ∀ s, s.within chart.size = true → P chart s (chart.cell s)) {s : Span}
    (hs : s.within chart.size = true) :
    P (chart.replace span cell).2 s ((chart.replace span cell).2.cell s) := by
  have hpart {t : Span} (ht : t.within chart.size = true) (hne : span ≠ t) :
      (chart.replace span cell).2.cell t = chart.cell t := cell_replace_ne hspan ht hne cell
  have hsplit (hnot : ¬span.Inside s) : ∀ m ∈ s.midpoints,
      (chart.replace span cell).2.cell ⟨s.start, m⟩ = chart.cell ⟨s.start, m⟩ ∧
        (chart.replace span cell).2.cell ⟨m, s.stop⟩ = chart.cell ⟨m, s.stop⟩ := by
    intro m hm
    obtain ⟨⟨hs₁, hinside₁⟩, hs₂, hinside₂⟩ := Span.inside_of_mem_midpoints hs hm
    exact ⟨hpart hs₁ fun heq => hnot (heq ▸ hinside₁), hpart hs₂ fun heq => hnot (heq ▸ hinside₂)⟩
  by_cases heq : span = s
  · subst heq
    rw [cell_replace_self hsized hspan]
    exact hP.congr hspan hcell (hsplit (Span.not_inside_self _))
  · rw [hpart hs heq]
    by_cases hinside : span.Inside s
    · rw [hempty s hs hinside]
      exact hP.empty _ s
    · exact hP.congr hs (h s hs) (hsplit hinside)

/-- What is true of every cell that is filled for one of the jobs is true of all cells after
them, if no job comes after one for a span that contains its own. -/
theorem Laid.forall_cells (hP : Settles P)
    (hlaid : Laid g merit words jobs chart outcome after)
    (hfill : ∀ chart' : Chart, chart'.size = chart.size → ∀ job ∈ jobs,
      job.span.within chart'.size = true →
        ∀ w : Workspace, w.Sound g → P chart' job.span (w.fill g merit chart' words job).1)
    (hsized : chart.Sized) (hjobs : Orderly chart.size jobs)
    (hempty : ∀ job ∈ jobs, ∀ s, s.within chart.size = true → job.span.Inside s →
      chart.cell s = ∅)
    (h : ∀ s, s.within chart.size = true → P chart s (chart.cell s)) :
    (∀ s, s.within after.size = true → P after s (after.cell s)) ∧ after.size = chart.size := by
  induction hlaid with
  | done => exact ⟨h, rfl⟩
  | cancelled => exact ⟨h, rfl⟩
  | @step job jobs chart cell outcome after hcell hlaid ih =>
    obtain ⟨w, hw, rfl⟩ := hcell
    obtain ⟨hlast, horder⟩ := List.pairwise_cons.1 hjobs.order
    have hjob := hjobs.within job List.mem_cons_self
    refine ih
      (fun chart' hsize other hother => hfill chart' hsize other (List.mem_cons_of_mem _ hother))
      (hsized.replace job.span _)
      ⟨fun other hother => hjobs.within other (List.mem_cons_of_mem _ hother), horder⟩
      (fun other hother s hs hinside => ?_)
      (fun s hs => hP.replace hsized hjob (hfill chart rfl job List.mem_cons_self hjob w hw)
        (hempty job List.mem_cons_self) h hs)
    rw [cell_replace_ne hjob hs fun heq => hlast other hother (heq ▸ hinside)]
    exact hempty other (List.mem_cons_of_mem _ hother) s hs hinside

theorem orderly_arrange {size : Nat} (h : Orderly size jobs) : Orderly size (p.arrange jobs) := by
  unfold arrange
  split_ifs
  · exact orderly_sortJobs h.within
  · exact h

theorem mem_arrange {job : CellJob} : job ∈ p.arrange jobs ↔ job ∈ jobs := by
  unfold arrange
  split_ifs
  · exact (sortJobs_perm jobs).mem_iff
  · exact Iff.rfl

/-- A walk bottom-up is orderly whatever its layers leave out. -/
theorem topological_layers (walk : BottomUp) (layers : List Layer) (length : UInt16) :
    Topological ((⟨.bottomUp walk, layers⟩ : Schedule).spans length).1 := by
  have hlength := length.toNat_lt
  rw [(Schedule.spans_eq _ _).1]
  refine ((Span.pairwise_byLength (by omega)).filter _).imp_of_mem fun {s t} hs _ hst => ?_
  have hmem : s ∈ Span.byLength length.toNat := (List.mem_filter.1 hs).1
  exact Span.not_inside_of_precedes ((Span.mem_byLength (by omega)).1 hmem) hst

/-- The jobs of a sentence have the limits that the options and the layers give. -/
theorem mem_jobs {length : Nat} {schedule : Schedule} {job : CellJob}
    (h : job ∈ (p.jobs length schedule).1) :
    job.limit = tighter (p.options.cellLimit? job.span) (schedule.limit? job.span) := by
  obtain ⟨span, -, rfl⟩ := List.mem_map.1 h
  change tighter _ ((schedule.spans (UInt16.ofNat length)).2.limit? span) = _
  rw [Schedule.limit?_spans]
  rfl

/-- What is true of every cell that is filled for a job with the limit of its span is true of
all cells after a sentence that is walked bottom-up, whatever layers there are. -/
theorem Accepts.forall_cells {tokens : List String} (hP : Settles P)
    (h : p.Accepts tokens words) (hg : p.grammar.Coherent) (hp : p.Sound) (merit : Merit)
    (walk : BottomUp) (layers : List Layer) (clock : Clock)
    (hfill : ∀ (chart : Chart) (job : CellJob), chart.size = tokens.length →
      job.span.within chart.size = true → job.limit = tighter (p.options.cellLimit? job.span)
        ((⟨.bottomUp walk, layers⟩ : Schedule).limit? job.span) →
      ∀ w : Workspace, w.Sound p.grammar →
        P chart job.span (w.fill p.grammar merit chart words job).1) :
    let r := p.fillChart tokens ⟨.bottomUp walk, layers⟩ merit clock
    (∀ s, s.within r.2.2.chart.size = true → P r.2.2.chart s (r.2.2.chart.cell s)) ∧
      r.2.2.chart.size = tokens.length := by
  intro r
  have hlaid := h.fillChart_laid ⟨.bottomUp walk, layers⟩ merit clock hg hp
  have hjobs : Orderly tokens.length
      (p.arrange (p.jobs tokens.length ⟨.bottomUp walk, layers⟩).1) :=
    orderly_arrange (orderly_jobs h.toNat_length (topological_layers walk layers _))
  have hclear (s : Span) : ((p.chart.clear 0).clear tokens.length).cell s = ∅ := cell_clear _ s
  refine hlaid.forall_cells hP
    (fun chart hsize job hjob hwithin =>
      hfill chart job hsize hwithin (mem_jobs (mem_arrange.1 hjob)))
    (sized_clear tokens.length) hjobs (fun _ _ s _ _ => hclear s) fun s _ => ?_
  rw [hclear]
  exact hP.empty _ s

end Parser
end ChartParsing
