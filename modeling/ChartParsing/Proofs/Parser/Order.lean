import ChartParsing.Proofs.Parser.Workspace
import ChartParsing.Proofs.Schedule

/-!
# Charts filled in order

The cells of a chart are put in place one after the other, each filled from the cells that
are there. If no span comes after one that strictly contains it, every cell ends up as it
would be filled from the finished chart, and this leaves one chart only, in whatever order
the cells were filled.
-/

namespace ChartParsing

namespace Span

/-- A span lies strictly inside another. -/
def Inside (s t : Span) : Prop := t.start ≤ s.start ∧ s.stop ≤ t.stop ∧ s ≠ t

theorem not_inside_self (s : Span) : ¬s.Inside s := fun h => h.2.2 rfl

theorem Inside.length_lt {size : Nat} {s t : Span} (h : s.Inside t)
    (ht : t.within size = true) : s.length < t.length := by
  obtain ⟨hstart, hstop, hne⟩ := h
  rw [UInt16.le_iff_toNat_le] at hstart hstop
  rw [within_iff] at ht
  unfold length
  rcases Nat.lt_or_ge t.start.toNat s.start.toNat with hlt | hge
  · omega
  · rcases Nat.lt_or_ge s.stop.toNat t.stop.toNat with hlt | hge'
    · omega
    · exact absurd (ext_toNat (by omega) (by omega)) hne

/-- No span comes bottom-up after one that strictly contains it. -/
theorem not_inside_of_precedes {size : Nat} {s t : Span} (hs : s.within size = true)
    (h : s.Precedes t) : ¬t.Inside s := by
  intro hinside
  have hlength := hinside.length_lt hs
  rcases h with h | h
  · omega
  · omega

/-- The two parts of a split lie strictly inside the span. -/
theorem inside_of_mem_midpoints {size : Nat} {s : Span} (h : s.within size = true) {m : UInt16}
    (hm : m ∈ s.midpoints) :
    ((⟨s.start, m⟩ : Span).within size = true ∧ (⟨s.start, m⟩ : Span).Inside s) ∧
      (⟨m, s.stop⟩ : Span).within size = true ∧ (⟨m, s.stop⟩ : Span).Inside s := by
  rw [mem_midpoints h] at hm
  rw [within_iff] at h
  rw [within_iff, within_iff]
  unfold Inside
  rw [UInt16.le_iff_toNat_le, UInt16.le_iff_toNat_le, UInt16.le_iff_toNat_le,
    UInt16.le_iff_toNat_le]
  dsimp only
  refine ⟨⟨by omega, by omega, by omega, fun heq => ?_⟩, by omega, by omega, by omega,
    fun heq => ?_⟩
  · have := congrArg (fun s => s.stop.toNat) heq
    dsimp only at this
    omega
  · have := congrArg (fun s => s.start.toNat) heq
    dsimp only at this
    omega

end Span

namespace Chart

open Workspace

variable (g : Grammar) (merit : Merit) (words : Array UInt32)

/-- The chart with the cell of a job, filled from the cells that are there. -/
def put (chart : Chart) (job : CellJob) : Chart :=
  (chart.replace job.span (cellFor g merit chart words job)).2

/-- The chart with the cells of jobs, one after the other. -/
def putAll (jobs : List CellJob) (chart : Chart) : Chart := jobs.foldl (put g merit words) chart

/-- What is counted while cells are put in place one after the other. -/
def statsAlong : List CellJob → Chart → ParseStats → ParseStats
  | [], _, stats => stats
  | job :: jobs, chart, stats =>
    statsAlong jobs (put g merit words chart job) (stats.merge (statsFor g merit chart words job))

/-- Jobs of a sentence, of which none comes after one whose span strictly contains its own. -/
structure Orderly (size : Nat) (jobs : List CellJob) : Prop where
  within : ∀ job ∈ jobs, job.span.within size = true
  order : jobs.Pairwise fun a b => ¬b.span.Inside a.span

/-- The last job of a span. -/
def lastAt? (s : Span) (jobs : List CellJob) : Option CellJob :=
  (jobs.filter fun job => job.span = s).getLast?

theorem lastAt?_concat (s : Span) (jobs : List CellJob) (job : CellJob) :
    lastAt? s (jobs ++ [job]) = if job.span = s then some job else lastAt? s jobs := by
  unfold lastAt?
  rw [List.filter_append]
  split_ifs with h
  · rw [List.filter_cons_of_pos (by simpa using h), List.filter_nil, List.getLast?_concat]
  · rw [List.filter_cons_of_neg (by simpa using h), List.filter_nil, List.append_nil]

theorem mem_of_lastAt? {s : Span} {jobs : List CellJob} {job : CellJob}
    (h : lastAt? s jobs = some job) : job ∈ jobs ∧ job.span = s := by
  obtain ⟨hmem, hspan⟩ := List.mem_filter.1 (List.mem_of_getLast? h)
  exact ⟨hmem, of_decide_eq_true hspan⟩

theorem lastAt?_eq_none {s : Span} {jobs : List CellJob} :
    lastAt? s jobs = none ↔ ∀ job ∈ jobs, job.span ≠ s := by
  unfold lastAt?
  rw [List.getLast?_eq_none_iff, List.filter_eq_nil_iff]
  simp

/-- Every cell is as it would be filled for the last job of its span from the chart itself,
and a cell of no job is empty. -/
structure Settled (jobs : List CellJob) (chart : Chart) : Prop where
  done : ∀ s job, lastAt? s jobs = some job → chart.cell s = cellFor g merit chart words job
  rest : ∀ s, s.within chart.size = true → lastAt? s jobs = none → chart.cell s = ∅

variable {g merit words}
variable {chart : Chart} {jobs : List CellJob}

theorem Sized.put (h : chart.Sized) (job : CellJob) : (put g merit words chart job).Sized :=
  h.replace job.span _

theorem putAll_keeps (g : Grammar) (merit : Merit) (words : Array UInt32) (h : chart.Sized)
    (jobs : List CellJob) :
    (putAll g merit words jobs chart).Sized ∧
      (putAll g merit words jobs chart).size = chart.size := by
  unfold putAll
  induction jobs generalizing chart with
  | nil => exact ⟨h, rfl⟩
  | cons job jobs ih => exact ih (h.put job)

theorem putAll_concat (jobs : List CellJob) (job : CellJob) (chart : Chart) :
    putAll g merit words (jobs ++ [job]) chart =
      put g merit words (putAll g merit words jobs chart) job := by
  unfold putAll
  rw [List.foldl_append]
  rfl

theorem statsAlong_concat (jobs : List CellJob) (job : CellJob) (chart : Chart)
    (stats : ParseStats) : statsAlong g merit words (jobs ++ [job]) chart stats =
      (statsAlong g merit words jobs chart stats).merge
        (statsFor g merit (putAll g merit words jobs chart) words job) := by
  induction jobs generalizing chart stats with
  | nil => rfl
  | cons first jobs ih => exact ih _ _

/-- A cell put in place makes no difference to a job that it is not strictly inside. -/
theorem fill_replace (g : Grammar) (merit : Merit) (words : Array UInt32) {span : Span}
    (cell : Cell) {other : CellJob} (hspan : span.within chart.size = true)
    (hother : other.span.within chart.size = true) (h : ¬span.Inside other.span)
    (w : Workspace) : w.fill g merit (chart.replace span cell).2 words other =
      w.fill g merit chart words other := by
  apply fill_local
  intro m hm
  obtain ⟨⟨hleft, hinside⟩, hright, hinside'⟩ := Span.inside_of_mem_midpoints hother hm
  constructor
  · exact cell_replace_ne hspan hleft (fun heq => h (by rwa [heq])) _
  · exact cell_replace_ne hspan hright (fun heq => h (by rwa [heq])) _

theorem fill_put {job other : CellJob} (hjob : job.span.within chart.size = true)
    (hother : other.span.within chart.size = true) (h : ¬job.span.Inside other.span)
    (w : Workspace) :
    w.fill g merit (put g merit words chart job) words other =
      w.fill g merit chart words other := fill_replace g merit words _ hjob hother h w

theorem cellFor_put {job other : CellJob} (hjob : job.span.within chart.size = true)
    (hother : other.span.within chart.size = true) (h : ¬job.span.Inside other.span) :
    cellFor g merit (put g merit words chart job) words other =
      cellFor g merit chart words other := by
  unfold cellFor
  rw [fill_put hjob hother h]

theorem statsFor_put {job other : CellJob} (hjob : job.span.within chart.size = true)
    (hother : other.span.within chart.size = true) (h : ¬job.span.Inside other.span) :
    statsFor g merit (put g merit words chart job) words other =
      statsFor g merit chart words other := by
  unfold statsFor
  rw [fill_put hjob hother h]

theorem Orderly.init {size : Nat} {job : CellJob} (h : Orderly size (jobs ++ [job])) :
    Orderly size jobs ∧ job.span.within size = true ∧
      ∀ other ∈ jobs, ¬job.span.Inside other.span := by
  have hmem {other : CellJob} (hother : other ∈ jobs) : other ∈ jobs ++ [job] :=
    List.mem_append_left _ hother
  obtain ⟨horder, -, hlast⟩ := List.pairwise_append.1 h.order
  refine ⟨⟨fun a ha => h.within a (hmem ha), horder⟩, ?_, fun other hother => ?_⟩
  · exact h.within job (List.mem_append_right _ (List.mem_singleton_self job))
  · exact hlast other hother job (List.mem_singleton_self job)

/-- Filling a chart in order settles it. -/
theorem settled_putAll (g : Grammar) (merit : Merit) (words : Array UInt32)
    (hsized : chart.Sized)
    (hempty : ∀ s, s.within chart.size = true → chart.cell s = ∅)
    (h : Orderly chart.size jobs) :
    Settled g merit words jobs (putAll g merit words jobs chart) := by
  induction jobs using List.reverseRecOn with
  | nil =>
    constructor
    · intro s job hjob
      cases hjob
    · intro s hs _
      exact hempty s hs
  | append_singleton jobs job ih =>
    obtain ⟨hinit, hjob, hlast⟩ := h.init
    obtain ⟨hdone, hrest⟩ := ih hinit
    obtain ⟨hsized', hsize⟩ := putAll_keeps g merit words hsized jobs
    rw [putAll_concat]
    generalize putAll g merit words jobs chart = before at hdone hrest hsized' hsize ⊢
    rw [← hsize] at hjob
    constructor
    · intro s other hother
      rw [lastAt?_concat] at hother
      split_ifs at hother with hspan
      · obtain rfl := Option.some.inj hother
        rw [← hspan, cellFor_put hjob hjob (Span.not_inside_self _)]
        exact cell_replace_self hsized' hjob _
      · obtain ⟨hmem, rfl⟩ := mem_of_lastAt? hother
        have hother' : other.span.within before.size = true := by
          rw [hsize]
          exact hinit.within other hmem
        rw [cellFor_put hjob hother' (hlast other hmem), ← hdone _ other hother]
        exact cell_replace_ne hjob hother' hspan _
    · intro s hs hnone
      rw [lastAt?_concat] at hnone
      split_ifs at hnone with hspan
      exact (cell_replace_ne hjob hs hspan _).trans (hrest s hs hnone)

/-- All that is counted can be counted on the finished chart. -/
theorem statsAlong_eq (hsized : chart.Sized) (h : Orderly chart.size jobs) (stats : ParseStats) :
    statsAlong g merit words jobs chart stats = jobs.foldl (fun stats job =>
      stats.merge (statsFor g merit (putAll g merit words jobs chart) words job)) stats := by
  induction jobs using List.reverseRecOn with
  | nil => rfl
  | append_singleton jobs job ih =>
    obtain ⟨hinit, hjob, hlast⟩ := h.init
    obtain ⟨hsized', hsize⟩ := putAll_keeps g merit words hsized jobs
    rw [statsAlong_concat, ih hinit, putAll_concat]
    generalize putAll g merit words jobs chart = before at hsized' hsize ⊢
    rw [← hsize] at hjob
    rw [List.foldl_append, List.foldl_cons, List.foldl_nil,
      statsFor_put hjob hjob (Span.not_inside_self _)]
    congr 1
    apply List.foldl_ext
    intro stats other hother
    have hother' : other.span.within before.size = true := by
      rw [hsize]
      exact hinit.within other hother
    rw [statsFor_put hjob hother' (hlast other hother)]

/-- There is one settled chart for given jobs. -/
theorem Settled.unique {c d : Chart} {jobs' : List CellJob} (hc : Settled g merit words jobs c)
    (hd : Settled g merit words jobs' d) (hjobs : ∀ s, lastAt? s jobs = lastAt? s jobs')
    (hsized : c.Sized) (hsized' : d.Sized) (hsize : c.size = d.size) (hlimit : c.size ≤ 65535) :
    c = d := by
  have hcell (n : Nat) : ∀ s : Span, s.within c.size = true → s.length = n →
      c.cell s = d.cell s := by
    induction n using Nat.strongRecOn with
    | ind n ih =>
      intro s hs hn
      cases hlast : lastAt? s jobs with
      | none =>
        rw [hc.rest s hs hlast, hd.rest s (hsize ▸ hs) (hjobs s ▸ hlast)]
      | some job =>
        rw [hc.done s job hlast, hd.done s job (hjobs s ▸ hlast)]
        obtain ⟨-, rfl⟩ := mem_of_lastAt? hlast
        unfold cellFor
        rw [fill_local g merit words job _ fun m hm => ?_]
        obtain ⟨⟨hleft, hinside⟩, hright, hinside'⟩ := Span.inside_of_mem_midpoints hs hm
        have hlength := hinside.length_lt hs
        have hlength' := hinside'.length_lt hs
        exact ⟨ih _ (hn ▸ hlength) _ hleft rfl, ih _ (hn ▸ hlength') _ hright rfl⟩
  exact ext_cells hsized hsized' hsize hlimit fun s hs => hcell s.length s hs rfl

/-- If no span comes twice, what is counted of the cells is what is on the chart. -/
theorem population_putAll (hg : g.Coherent) (merit : Merit) (words : Array UInt32)
    (hsized : chart.Sized)
    (hempty : ∀ s, s.within chart.size = true → chart.cell s = ∅)
    (h : Orderly chart.size jobs) (hnodup : (jobs.map (·.span)).Nodup) (stats : ParseStats) :
    (statsAlong g merit words jobs chart stats).population + chart.population =
      stats.population + (putAll g merit words jobs chart).population := by
  induction jobs using List.reverseRecOn with
  | nil => rfl
  | append_singleton jobs job ih =>
    obtain ⟨hinit, hjob, -⟩ := h.init
    rw [List.map_append, List.nodup_append] at hnodup
    obtain ⟨hnodup, -, hnew⟩ := hnodup
    have ih := ih hinit hnodup
    have hrest := (settled_putAll g merit words hsized hempty hinit).rest
    obtain ⟨hsized', hsize⟩ := putAll_keeps g merit words hsized jobs
    rw [statsAlong_concat, putAll_concat]
    generalize putAll g merit words jobs chart = before at ih hrest hsized' hsize ⊢
    rw [← hsize] at hjob
    have hcell : before.cell job.span = ∅ := by
      refine hrest job.span hjob (lastAt?_eq_none.2 fun other hother => ?_)
      exact hnew other.span (List.mem_map_of_mem hother) job.span (by simp)
    have hcount := population_replace hsized' hjob (cellFor g merit before words job)
    rw [hcell] at hcount
    rw [statsFor_eq hg merit before words hjob]
    unfold ParseStats.merge put
    dsimp only
    have hzero : (∅ : Cell).size = 0 := rfl
    omega

end Chart
end ChartParsing
