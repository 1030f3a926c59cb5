import ChartParsing.Proofs.Parser.Run
import Mathlib.Data.List.SplitBy

/-!
# Workers

A run side by side does the jobs of one width after the other. No job of a width is lost
when they are dealt out to the workers, and none looks at a cell of its own width, so it
makes no difference that their cells are put in place only when all are filled.
-/

namespace ChartParsing

namespace Parser

open Workspace Chart

section Chunks

variable {α : Type}

theorem chunks_nil (size : Nat) : chunks size ([] : List α) = [] := by
  rw [chunks]
  simp

theorem chunks_eq {size : Nat} (hsize : 0 < size) {xs : List α} (hxs : xs ≠ []) :
    chunks size xs = xs.take size :: chunks size (xs.drop size) := by
  rw [chunks, if_neg]
  rw [List.isEmpty_iff]
  rintro (h | h)
  · exact hxs h
  · omega

/-- The runs that a list is cut into make it up. -/
theorem flatten_chunks {size : Nat} (hsize : 0 < size) (xs : List α) :
    (chunks size xs).flatten = xs := by
  by_cases hxs : xs = []
  · rw [hxs, chunks_nil]
    rfl
  · have hlength := List.length_pos_iff.2 hxs
    rw [chunks_eq hsize hxs, List.flatten_cons, flatten_chunks hsize, List.take_append_drop]
termination_by xs.length
decreasing_by
  rw [List.length_drop]
  omega

theorem length_chunks_le {size : Nat} (hsize : 0 < size) {xs : List α} {n : Nat}
    (h : xs.length ≤ n * size) : (chunks size xs).length ≤ n := by
  induction n generalizing xs with
  | zero =>
    rw [Nat.zero_mul, Nat.le_zero, List.length_eq_zero_iff] at h
    rw [h, chunks_nil]
    exact Nat.le_refl 0
  | succ n ih =>
    by_cases hxs : xs = []
    · rw [hxs, chunks_nil]
      exact Nat.zero_le _
    · rw [chunks_eq hsize hxs, List.length_cons]
      refine Nat.succ_le_succ (ih ?_)
      rw [List.length_drop]
      rw [Nat.succ_mul] at h
      omega

/-- Jobs are cut into no more runs than there are workers. -/
theorem length_chunks_workers {count : Nat} (hcount : 0 < count) {xs : List α} (hxs : xs ≠ []) :
    0 < (xs.length + count - 1) / count ∧
      (chunks ((xs.length + count - 1) / count) xs).length ≤ count := by
  have hlength := List.length_pos_iff.2 hxs
  have hsize : 0 < (xs.length + count - 1) / count :=
    Nat.div_pos (by omega) hcount
  refine ⟨hsize, length_chunks_le hsize ?_⟩
  have hmod := Nat.mod_lt (xs.length + count - 1) hcount
  have hdiv := Nat.div_add_mod (xs.length + count - 1) count
  omega

end Chunks

variable {g : Grammar} {merit : Merit} {chart : Chart} {words : Array UInt32}

/-- The cell of a job that was filled with a new workspace. -/
def filledFor (g : Grammar) (merit : Merit) (chart : Chart) (words : Array UInt32)
    (job : CellJob) : FilledCell :=
  ⟨job, cellFor g merit chart words job, statsFor g merit chart words job⟩

/-- Fills the cell of a worker's next job; the cells filled before come last. -/
def fillNext (g : Grammar) (merit : Merit) (chart : Chart) (words : Array UInt32)
    (state : List FilledCell × Workspace) (job : CellJob) : List FilledCell × Workspace :=
  let (cell, stats, w) := state.2.fill g merit chart words job
  (⟨job, cell, stats⟩ :: state.1, w)

theorem foldl_fillNext (merit : Merit) (chart : Chart) (words : Array UInt32) (hg : g.Coherent)
    {w : Workspace} (hw : w.Sound g) {jobs : List CellJob} {size : Nat}
    (hjobs : ∀ job ∈ jobs, job.span.within size = true)
    (filled : List FilledCell) :
    (jobs.foldl (fillNext g merit chart words) (filled, w)).2.Sound g ∧
      (Tidy merit jobs → w.Fresh →
        (jobs.foldl (fillNext g merit chart words) (filled, w)).2.Fresh) ∧
      (Clean merit jobs w.Fresh → (jobs.foldl (fillNext g merit chart words) (filled, w)).1 =
        (jobs.map (filledFor g merit chart words)).reverse ++ filled) := by
  induction jobs generalizing w filled with
  | nil => exact ⟨hw, fun _ h => h, fun _ => rfl⟩
  | cons job jobs ih =>
    have hjob := hjobs job List.mem_cons_self
    obtain ⟨-, hsound, hfresh⟩ := hw.fill_keeps chart words hg merit hjob
    obtain ⟨hsound', hfresh', hcells⟩ := ih hsound
      (fun other hother => hjobs other (List.mem_cons_of_mem _ hother))
      (⟨job, (w.fill g merit chart words job).1, (w.fill g merit chart words job).2.1⟩ :: filled)
    refine ⟨hsound', fun h hw' => hfresh' h.cons.2 (hfresh h.cons.1 hw'), fun hclean => ?_⟩
    obtain ⟨hcell, hstats⟩ := hw.fill chart words hg merit hjob hclean.head
    refine (hcells (hclean.tail hfresh)).trans ?_
    rw [hcell, hstats, List.map_cons, List.reverse_cons, List.append_assoc]
    rfl

/-- What a worker leaves in order, and the cells it fills. -/
theorem fillAll_keeps (hg : g.Coherent) {w : Workspace} (hw : w.Sound g) {jobs : List CellJob}
    {size : Nat} (hjobs : ∀ job ∈ jobs, job.span.within size = true) :
    (fillAll g merit chart words jobs w).2.Sound g ∧
      (Tidy merit jobs → w.Fresh → (fillAll g merit chart words jobs w).2.Fresh) ∧
      (Clean merit jobs w.Fresh → (fillAll g merit chart words jobs w).1 =
        jobs.map (filledFor g merit chart words)) := by
  obtain ⟨hsound, hfresh, hcells⟩ :=
    foldl_fillNext merit chart words hg hw hjobs []
  have heq : fillAll g merit chart words jobs w =
      ((jobs.foldl (fillNext g merit chart words) ([], w)).1.reverse,
        (jobs.foldl (fillNext g merit chart words) ([], w)).2) := rfl
  rw [heq]
  refine ⟨hsound, hfresh, fun hclean => ?_⟩
  rw [hcells hclean, List.append_nil, List.reverse_reverse]

/-- The chart with filled cells in place, and what was counted of them. -/
def commitCells (filled : List FilledCell) (state : Chart × ParseStats) : Chart × ParseStats :=
  filled.foldl (fun (chart, stats) f =>
    ((chart.replace f.job.span f.cell).2, stats.merge f.stats)) state

theorem commitCells_append (filled filled' : List FilledCell) (state : Chart × ParseStats) :
    commitCells (filled ++ filled') state = commitCells filled' (commitCells filled state) :=
  List.foldl_append

theorem size_commitCells (filled : List FilledCell) (state : Chart × ParseStats) :
    (commitCells filled state).1.size = state.1.size := by
  unfold commitCells
  induction filled generalizing state with
  | nil => rfl
  | cons f filled ih => exact ih _

theorem commit_eq (filled : List FilledCell) (state : Chart × ParseStats) (w : Workspace) :
    (commit filled state w).1 = commitCells filled state ∧
      (w.Sound g → (commit filled state w).2.Sound g) ∧
      (w.Fresh → (commit filled state w).2.Fresh) := by
  unfold commit commitCells
  induction filled generalizing state w with
  | nil => exact ⟨rfl, fun h => h, fun h => h⟩
  | cons f filled ih =>
    obtain ⟨hstate, hsound, hfresh⟩ := ih _ (w.keep (state.1.replace f.job.span f.cell).1)
    exact ⟨hstate, fun h => hsound (h.keep _), hfresh⟩

/-- The cells of all workers are put in place in their order. -/
theorem commitAll_eq (results : List (List FilledCell × Workspace)) (state : Chart × ParseStats) :
    (commitAll results state).1 = commitCells (results.flatMap (·.1)) state ∧
      (commitAll results state).2.length = results.length ∧
      ((∀ r ∈ results, r.2.Sound g) → ∀ w ∈ (commitAll results state).2, w.Sound g) ∧
      ((∀ r ∈ results, r.2.Fresh) → ∀ w ∈ (commitAll results state).2, w.Fresh) := by
  induction results generalizing state with
  | nil => exact ⟨rfl, rfl, fun _ w hw => (List.not_mem_nil hw).elim,
      fun _ w hw => (List.not_mem_nil hw).elim⟩
  | cons r results ih =>
    obtain ⟨hstate, hsound, hfresh⟩ := commit_eq (g := g) r.1 state r.2
    obtain ⟨hstate', hlength, hsound', hfresh'⟩ := ih (commit r.1 state r.2).1
    refine ⟨?_, congrArg Nat.succ hlength, fun h w hw => ?_, fun h w hw => ?_⟩
    · rw [List.flatMap_cons, commitCells_append, ← hstate]
      exact hstate'
    · rcases List.mem_cons.1 hw with rfl | hw
      · exact hsound (h r List.mem_cons_self)
      · exact hsound' (fun r' hr' => h r' (List.mem_cons_of_mem _ hr')) w hw
    · rcases List.mem_cons.1 hw with rfl | hw
      · exact hfresh (h r List.mem_cons_self)
      · exact hfresh' (fun r' hr' => h r' (List.mem_cons_of_mem _ hr')) w hw

/-- Cells that were filled before any was put in place, of jobs none of which is strictly
inside another. -/
theorem commitCells_filledFor {start : Chart} {jobs : List CellJob} (stats : ParseStats)
    (hjobs : ∀ job ∈ jobs, job.span.within chart.size = true)
    (hapart : jobs.Pairwise fun a b => ¬a.span.Inside b.span)
    (hsame : ∀ job ∈ jobs, filledFor g merit start words job = filledFor g merit chart words job) :
    commitCells (jobs.map (filledFor g merit start words)) (chart, stats) =
      (putAll g merit words jobs chart, statsAlong g merit words jobs chart stats) := by
  induction jobs generalizing chart stats with
  | nil => rfl
  | cons job jobs ih =>
    obtain ⟨hjob, hapart⟩ := List.pairwise_cons.1 hapart
    have hwithin := hjobs job List.mem_cons_self
    have hstep := hsame job List.mem_cons_self
    have ih := @ih (put g merit words chart job)
      (stats.merge (statsFor g merit chart words job))
      (fun other hother => hjobs other (List.mem_cons_of_mem _ hother)) hapart
      (fun other hother => ?_)
    · refine Eq.trans ?_ ih
      change commitCells (jobs.map (filledFor g merit start words))
        ((chart.replace (filledFor g merit start words job).job.span
          (filledFor g merit start words job).cell).2,
          stats.merge (filledFor g merit start words job).stats) = _
      rw [hstep]
      rfl
    · have hother' := hjobs other (List.mem_cons_of_mem _ hother)
      rw [hsame other (List.mem_cons_of_mem _ hother)]
      unfold filledFor
      rw [cellFor_put hwithin hother' (hjob other hother),
        statsFor_put hwithin hother' (hjob other hother)]

/-- Runs of jobs that are zipped with enough workers are all done. -/
theorem flatMap_zip {α β γ : Type} (f : α → β → List γ) (h : α → List γ) {xs : List α}
    {ys : List β} (hlength : xs.length ≤ ys.length)
    (heq : ∀ x ∈ xs, ∀ y ∈ ys, f x y = h x) :
    (xs.zip ys).flatMap (fun z => f z.1 z.2) = xs.flatMap h := by
  induction xs generalizing ys with
  | nil => rfl
  | cons x xs ih =>
    cases ys with
    | nil => exact absurd hlength (Nat.not_succ_le_zero _)
    | cons y ys =>
      rw [List.zip_cons_cons, List.flatMap_cons, List.flatMap_cons,
        heq x List.mem_cons_self y List.mem_cons_self,
        ih (Nat.le_of_succ_le_succ hlength) fun x' hx' y' hy' =>
          heq x' (List.mem_cons_of_mem _ hx') y' (List.mem_cons_of_mem _ hy')]

/-- The cells that the workers fill for the runs that jobs are cut into. -/
def results (g : Grammar) (merit : Merit) (chart : Chart) (words : Array UInt32)
    (jobs : List CellJob) (workers : List Workspace) : List (List FilledCell × Workspace) :=
  ((chunks ((jobs.length + workers.length - 1) / workers.length) jobs).zip workers).map
    fun (run, w) => fillAll g merit chart words run w

variable {jobs : List CellJob} {workers : List Workspace}

theorem mem_of_mem_chunks {size : Nat} (hsize : 0 < size) {run : List CellJob}
    (hrun : run ∈ chunks size jobs) {job : CellJob} (hjob : job ∈ run) : job ∈ jobs := by
  rw [← flatten_chunks hsize jobs]
  exact List.mem_flatten_of_mem hrun hjob

theorem Tidy.of_mem {jobs' : List CellJob} (h : Tidy merit jobs)
    (hmem : ∀ job ∈ jobs', job ∈ jobs) : Tidy merit jobs' :=
  h.imp_right fun h job hjob => h job (hmem job hjob)

theorem Clean.of_mem {jobs' : List CellJob} {fresh fresh' : Prop} (h : Clean merit jobs fresh)
    (hmem : ∀ job ∈ jobs', job ∈ jobs) (hfresh : fresh → fresh') : Clean merit jobs' fresh' :=
  h.imp (fun h job hjob => h job (hmem job hjob)) fun h => ⟨h.1, hfresh h.2⟩

/-- What the workers leave in order, and the cells they fill: no job is lost. -/
theorem results_keep (merit : Merit) (chart : Chart) (words : Array UInt32) (hg : g.Coherent)
    (hnil : jobs ≠ []) (hworkers : workers ≠ []) (hsound : ∀ w ∈ workers, w.Sound g) {size : Nat}
    (hjobs : ∀ job ∈ jobs, job.span.within size = true) :
    (∀ r ∈ results g merit chart words jobs workers, r.2.Sound g) ∧
      (Tidy merit jobs → (∀ w ∈ workers, w.Fresh) →
        ∀ r ∈ results g merit chart words jobs workers, r.2.Fresh) ∧
      (Clean merit jobs (∀ w ∈ workers, w.Fresh) →
        (results g merit chart words jobs workers).flatMap (·.1) =
          jobs.map (filledFor g merit chart words)) := by
  obtain ⟨hsize, hlength⟩ :=
    length_chunks_workers (List.length_pos_iff.2 hworkers) hnil
  unfold results
  generalize (jobs.length + workers.length - 1) / workers.length = cut at hsize hlength ⊢
  have hrun {run : List CellJob} (hrun : run ∈ chunks cut jobs) {job : CellJob}
      (hjob : job ∈ run) : job ∈ jobs := mem_of_mem_chunks hsize hrun hjob
  refine ⟨fun r hr => ?_, fun htidy hfresh r hr => ?_, fun hclean => ?_⟩
  · obtain ⟨⟨run, w⟩, hmem, rfl⟩ := List.mem_map.1 hr
    obtain ⟨hmem, hw⟩ := List.of_mem_zip hmem
    exact (fillAll_keeps hg (hsound w hw) fun job hjob => hjobs job (hrun hmem hjob)).1
  · obtain ⟨⟨run, w⟩, hmem, rfl⟩ := List.mem_map.1 hr
    obtain ⟨hmem, hw⟩ := List.of_mem_zip hmem
    exact (fillAll_keeps hg (hsound w hw) fun job hjob => hjobs job (hrun hmem hjob)).2.1
      (htidy.of_mem fun job hjob => hrun hmem hjob) (hfresh w hw)
  · rw [List.flatMap_map]
    refine (flatMap_zip (fun run w => (fillAll g merit chart words run w).1)
      (fun run => run.map (filledFor g merit chart words)) hlength ?_).trans ?_
    · intro run hmem w hw
      exact (fillAll_keeps hg (hsound w hw) fun job hjob => hjobs job (hrun hmem hjob)).2.2
        (hclean.of_mem (fun job hjob => hrun hmem hjob) fun hfresh => hfresh w hw)
    · rw [List.flatMap_def, ← List.map_flatten, flatten_chunks hsize]

variable {p : Parser} {clock : Clock}

theorem runWidth_eq (jobs : List CellJob) (stats : ParseStats) (p : Parser) :
    p.runWidth merit jobs stats =
      let filled := results p.grammar merit p.chart p.words jobs p.workers.toList
      let committed := commitAll filled (p.chart, stats)
      (committed.1.2, { p with
        chart := committed.1.1
        workers := (committed.2 ++ p.workers.toList.drop
          (chunks ((jobs.length + p.workers.toList.length - 1) / p.workers.toList.length)
            jobs).length).toArray }) := rfl

/-- What the cells of one width leave in order. -/
theorem runWidth_keeps (merit : Merit) (hg : p.grammar.Coherent) (hp : p.Sound)
    (hworkers : p.workers ≠ #[]) {jobs : List CellJob} (hnil : jobs ≠ []) (stats : ParseStats)
    (hjobs : ∀ job ∈ jobs, job.span.within p.chart.size = true) :
    (p.runWidth merit jobs stats).2.Sound ∧ Kept p (p.runWidth merit jobs stats).2 ∧
      (p.runWidth merit jobs stats).2.workers ≠ #[] ∧
      (Tidy merit jobs → p.Fresh → (p.runWidth merit jobs stats).2.Fresh) := by
  have hworkers' : p.workers.toList ≠ [] := fun h => hworkers (Array.toList_eq_nil_iff.1 h)
  obtain ⟨hsound, hfresh, -⟩ := results_keep merit p.chart p.words hg hnil hworkers'
    (fun w hw => hp.workers w (Array.mem_toList_iff.1 hw)) hjobs
  obtain ⟨hstate, hlength, hsound', hfresh'⟩ := commitAll_eq (g := p.grammar)
    (results p.grammar merit p.chart p.words jobs p.workers.toList) (p.chart, stats)
  have hchunks := length_chunks_workers (List.length_pos_iff.2 hworkers') hnil
  rw [runWidth_eq]
  dsimp only
  have hresults : (results p.grammar merit p.chart p.words jobs p.workers.toList).length =
      (chunks ((jobs.length + p.workers.toList.length - 1) / p.workers.toList.length)
        jobs).length := by
    unfold results
    rw [List.length_map, List.length_zip, Nat.min_eq_left hchunks.2]
  have hcut : 0 < (results p.grammar merit p.chart p.words jobs p.workers.toList).length := by
    rw [hresults, chunks_eq hchunks.1 hnil]
    exact Nat.succ_pos _
  generalize commitAll (results p.grammar merit p.chart p.words jobs p.workers.toList)
    (p.chart, stats) = committed at hstate hlength hsound' hfresh' ⊢
  refine ⟨⟨hp.workspace, fun w hw => ?_⟩, ⟨rfl, rfl, rfl, rfl, ?_⟩, fun h => ?_,
    fun htidy hp' => ⟨hp'.workspace, fun w hw => ?_⟩⟩
  · rw [List.mem_toArray, List.mem_append] at hw
    rcases hw with hw | hw
    · exact hsound' hsound w hw
    · exact hp.workers w (Array.mem_toList_iff.1 (List.mem_of_mem_drop hw))
  · dsimp only
    rw [hstate, size_commitCells]
  · have := congrArg Array.size h
    rw [List.size_toArray, List.length_append, hlength] at this
    change _ = 0 at this
    omega
  · rw [List.mem_toArray, List.mem_append] at hw
    rcases hw with hw | hw
    · exact hfresh' (hfresh htidy fun v hv => hp'.workers v (Array.mem_toList_iff.1 hv)) w hw
    · exact hp'.workers w (Array.mem_toList_iff.1 (List.mem_of_mem_drop hw))

/-- The cells of one width are put in place as if they were filled one after the other. -/
theorem runWidth_ran (merit : Merit) (hg : p.grammar.Coherent) (hp : p.Sound)
    (hworkers : p.workers ≠ #[]) {jobs : List CellJob} (hnil : jobs ≠ []) (stats : ParseStats)
    (hjobs : ∀ job ∈ jobs, job.span.within p.chart.size = true)
    (hapart : jobs.Pairwise fun a b => ¬a.span.Inside b.span)
    (hclean : Clean merit jobs p.Fresh) :
    (p.runWidth merit jobs stats).1 =
        statsAlong p.grammar merit p.words jobs p.chart stats ∧
      (p.runWidth merit jobs stats).2.chart = putAll p.grammar merit p.words jobs p.chart := by
  have hworkers' : p.workers.toList ≠ [] := fun h => hworkers (Array.toList_eq_nil_iff.1 h)
  obtain ⟨-, -, hcells⟩ := results_keep merit p.chart p.words hg hnil hworkers'
    (fun w hw => hp.workers w (Array.mem_toList_iff.1 hw)) hjobs
  have hcells := hcells (hclean.of_mem (fun _ h => h)
    fun hfresh w hw => hfresh.workers w (Array.mem_toList_iff.1 hw))
  obtain ⟨hstate, -⟩ := commitAll_eq (g := p.grammar)
    (results p.grammar merit p.chart p.words jobs p.workers.toList) (p.chart, stats)
  rw [hcells, commitCells_filledFor stats hjobs hapart fun _ _ => rfl] at hstate
  rw [runWidth_eq]
  dsimp only
  rw [hstate]
  exact ⟨rfl, rfl⟩

/-- What groups of jobs leave in order. -/
theorem runGroups_keeps (merit : Merit) (clock : Clock) (looks : Nat) (stats : ParseStats)
    (hg : p.grammar.Coherent) (hp : p.Sound) (hworkers : p.workers ≠ #[])
    {groups : List (List CellJob)} (hnil : ∀ jobs ∈ groups, jobs ≠ [])
    (hjobs : ∀ jobs ∈ groups, ∀ job ∈ jobs, job.span.within p.chart.size = true) :
    (p.runGroups merit clock looks groups stats).2.Sound ∧
      Kept p (p.runGroups merit clock looks groups stats).2 ∧
      (Tidy merit groups.flatten → p.Fresh →
        (p.runGroups merit clock looks groups stats).2.Fresh) := by
  induction groups generalizing p looks stats with
  | nil => exact ⟨hp, Kept.refl p, fun _ h => h⟩
  | cons jobs groups ih =>
    unfold runGroups
    rcases checkTime_eq p.options (clock looks) with hok | ⟨-, herror⟩
    · rw [hok]
      obtain ⟨hsound, hkept, hworkers', hfresh⟩ := runWidth_keeps merit hg hp hworkers
        (hnil jobs List.mem_cons_self) stats (hjobs jobs List.mem_cons_self)
      obtain ⟨hsound', hkept', hfresh'⟩ := ih (looks + 1) (p.runWidth merit jobs stats).1
        (by rw [hkept.grammar]; exact hg) hsound hworkers'
        (fun other hother => hnil other (List.mem_cons_of_mem _ hother))
        (fun other hother => by rw [hkept.size]; exact hjobs other (List.mem_cons_of_mem _ hother))
      refine ⟨hsound', hkept.trans hkept', fun htidy hp' => ?_⟩
      rw [List.flatten_cons] at htidy
      exact hfresh' (htidy.of_mem fun job hjob => List.mem_append_right _ hjob)
        (hfresh (htidy.of_mem fun job hjob => List.mem_append_left _ hjob) hp')
    · rw [herror]
      exact ⟨hp, Kept.refl p, fun _ h => h⟩

/-- Groups of jobs none of which is strictly inside another of its group are done one
after the other. -/
theorem runGroups_ran (merit : Merit) (clock : Clock) (looks : Nat) (stats : ParseStats)
    (hg : p.grammar.Coherent) (hp : p.Sound) (hworkers : p.workers ≠ #[])
    {groups : List (List CellJob)} (hnil : ∀ jobs ∈ groups, jobs ≠ [])
    (hjobs : ∀ jobs ∈ groups, ∀ job ∈ jobs, job.span.within p.chart.size = true)
    (hapart : ∀ jobs ∈ groups, jobs.Pairwise fun a b => ¬a.span.Inside b.span)
    (hclean : Clean merit groups.flatten p.Fresh) :
    Ran p.grammar merit p.words p.options.timeLimit groups.flatten p.chart stats
      (p.runGroups merit clock looks groups stats).1
      (p.runGroups merit clock looks groups stats).2.chart := by
  induction groups generalizing p looks stats with
  | nil => exact .done
  | cons jobs groups ih =>
    have hhead := hnil jobs List.mem_cons_self
    rw [List.flatten_cons] at hclean ⊢
    unfold runGroups
    rcases checkTime_eq p.options (clock looks) with hok | ⟨hlimit, herror⟩
    · rw [hok]
      have hclean' : Clean merit jobs p.Fresh :=
        hclean.of_mem (fun job hjob => List.mem_append_left _ hjob) fun h => h
      obtain ⟨hsound, hkept, hworkers', hfresh⟩ := runWidth_keeps merit hg hp hworkers
        hhead stats (hjobs jobs List.mem_cons_self)
      obtain ⟨hstats, hchart⟩ := runWidth_ran merit hg hp hworkers hhead stats
        (hjobs jobs List.mem_cons_self) (hapart jobs List.mem_cons_self) hclean'
      have hrest : Clean merit groups.flatten (p.runWidth merit jobs stats).2.Fresh := by
        rcases hclean with hnone | ⟨hmerit, hp'⟩
        · exact Or.inl fun job hjob => hnone job (List.mem_append_right _ hjob)
        · exact Or.inr ⟨hmerit, hfresh (Or.inl hmerit) hp'⟩
      have ih := ih (looks + 1) (p.runWidth merit jobs stats).1
        (by rw [hkept.grammar]; exact hg) hsound hworkers'
        (fun other hother => hnil other (List.mem_cons_of_mem _ hother))
        (fun other hother => by rw [hkept.size]; exact hjobs other (List.mem_cons_of_mem _ hother))
        (fun other hother => hapart other (List.mem_cons_of_mem _ hother)) hrest
      rw [hkept.grammar, hkept.words, hkept.options, hchart] at ih
      refine Ran.append ?_
      rw [← hstats]
      exact ih
    · rw [herror]
      cases jobs with
      | nil => exact absurd rfl hhead
      | cons job jobs => exact .cancelled hlimit

/-- Workers are hired with new workspaces. -/
theorem hireWorkers_keeps (hp : p.Sound) :
    p.hireWorkers.Sound ∧ Kept p p.hireWorkers ∧ p.hireWorkers.workers ≠ #[] ∧
      p.hireWorkers.chart = p.chart ∧ (p.Fresh → p.hireWorkers.Fresh) := by
  have hmem {w : Workspace} (hw : w ∈ p.hireWorkers.workers) :
      w ∈ p.workers ∨ w = Workspace.new p.grammar := by
    rcases Array.mem_append.1 hw with hw | hw
    · exact Or.inl hw
    · exact Or.inr (Array.mem_replicate.1 hw).2
  refine ⟨⟨hp.workspace, fun w hw => ?_⟩, ⟨rfl, rfl, rfl, rfl, rfl⟩, fun h => ?_, rfl,
    fun hp' => ⟨hp'.workspace, fun w hw => ?_⟩⟩
  · rcases hmem hw with hw | rfl
    · exact hp.workers w hw
    · exact sound_new p.grammar
  · have hsize := congrArg Array.size h
    unfold hireWorkers at hsize
    rw [Array.size_append, Array.size_replicate] at hsize
    change _ = 0 at hsize
    omega
  · rcases hmem hw with hw | rfl
    · exact hp'.workers w hw
    · exact fresh_new p.grammar

/-- The jobs in the order of a run side by side. -/
def sortJobs (jobs : List CellJob) : List CellJob :=
  jobs.mergeSort fun a b => a.span.width ≤ b.span.width

theorem sortJobs_perm (jobs : List CellJob) : (sortJobs jobs).Perm jobs :=
  List.mergeSort_perm _ _

theorem width_trans (a b c : CellJob) (hab : decide (a.span.width ≤ b.span.width) = true)
    (hbc : decide (b.span.width ≤ c.span.width) = true) :
    decide (a.span.width ≤ c.span.width) = true :=
  decide_eq_true (UInt16.le_trans (of_decide_eq_true hab) (of_decide_eq_true hbc))

theorem width_total (a b : CellJob) :
    (decide (a.span.width ≤ b.span.width) || decide (b.span.width ≤ a.span.width)) = true := by
  rw [Bool.or_eq_true, decide_eq_true_iff, decide_eq_true_iff]
  exact UInt16.le_total _ _

theorem pairwise_sortJobs (jobs : List CellJob) :
    (sortJobs jobs).Pairwise fun a b => a.span.width ≤ b.span.width :=
  (List.pairwise_mergeSort width_trans width_total jobs).imp fun h => of_decide_eq_true h

/-- Spans of one width are not strictly inside one another. -/
theorem not_inside_of_width_le {size : Nat} {s t : Span} (hs : s.within size = true)
    (ht : t.within size = true) (h : s.width ≤ t.width) : ¬t.Inside s := by
  intro hinside
  have hlength := hinside.length_lt hs
  rw [UInt16.le_iff_toNat_le, Span.toNat_width hs, Span.toNat_width ht] at h
  omega

/-- The groups of a run side by side: each has one width. -/
def groupJobs (jobs : List CellJob) : List (List CellJob) :=
  (sortJobs jobs).splitBy fun a b => a.span.width == b.span.width

theorem flatten_groupJobs (jobs : List CellJob) : (groupJobs jobs).flatten = sortJobs jobs :=
  List.flatten_splitBy _ _

theorem ne_nil_of_mem_groupJobs {group : List CellJob} (h : group ∈ groupJobs jobs) :
    group ≠ [] := List.ne_nil_of_mem_splitBy h

theorem pairwise_of_mem_groupJobs {group : List CellJob} (h : group ∈ groupJobs jobs) :
    group.Pairwise fun a b => a.span.width = b.span.width := by
  have hchain := List.isChain_of_mem_splitBy h
  have hchain' : group.IsChain fun a b => a.span.width = b.span.width :=
    hchain.imp fun a b hab => beq_iff_eq.1 hab
  have : IsTrans CellJob fun a b => a.span.width = b.span.width := ⟨fun _ _ _ => Eq.trans⟩
  exact hchain'.pairwise

theorem mem_of_mem_groupJobs {group : List CellJob} (h : group ∈ groupJobs jobs) {job : CellJob}
    (hjob : job ∈ group) : job ∈ jobs := by
  rw [← (sortJobs_perm jobs).mem_iff, ← flatten_groupJobs]
  exact List.mem_flatten_of_mem h hjob

theorem runParallel_eq (jobs : List CellJob) (stats : ParseStats) (p : Parser) :
    p.runParallel merit clock jobs stats =
      p.hireWorkers.runGroups merit clock 0 (groupJobs jobs) stats := rfl

/-- What a run side by side leaves in order. -/
theorem runParallel_keeps (jobs : List CellJob) (stats : ParseStats) (hg : p.grammar.Coherent)
    (hp : p.Sound) (hjobs : ∀ job ∈ jobs, job.span.within p.chart.size = true) :
    (p.runParallel merit clock jobs stats).2.Sound ∧
      Kept p (p.runParallel merit clock jobs stats).2 ∧
      (Tidy merit jobs → p.Fresh → (p.runParallel merit clock jobs stats).2.Fresh) := by
  obtain ⟨hsound, hkept, hworkers, -, hfresh⟩ := hireWorkers_keeps hp
  obtain ⟨hsound', hkept', hfresh'⟩ := runGroups_keeps merit clock 0 stats
    (by rw [hkept.grammar]; exact hg) hsound hworkers
    (fun _ hgroup => ne_nil_of_mem_groupJobs hgroup)
    (fun group hgroup job hjob => hjobs job (mem_of_mem_groupJobs hgroup hjob))
  rw [runParallel_eq]
  refine ⟨hsound', hkept.trans hkept', fun htidy hp' => hfresh' ?_ (hfresh hp')⟩
  refine htidy.of_mem fun job hjob => ?_
  rw [flatten_groupJobs] at hjob
  exact (sortJobs_perm jobs).mem_iff.1 hjob

/-- A run side by side puts the cells of its jobs in place by width. -/
theorem runParallel_ran {jobs : List CellJob} (stats : ParseStats) (hg : p.grammar.Coherent)
    (hp : p.Sound) (hjobs : ∀ job ∈ jobs, job.span.within p.chart.size = true)
    (hclean : Clean merit jobs p.Fresh) :
    Ran p.grammar merit p.words p.options.timeLimit (sortJobs jobs) p.chart stats
      (p.runParallel merit clock jobs stats).1
      (p.runParallel merit clock jobs stats).2.chart := by
  obtain ⟨hsound, hkept, hworkers, hchart, hfresh⟩ := hireWorkers_keeps hp
  have hran := runGroups_ran merit clock 0 stats
    (by rw [hkept.grammar]; exact hg) hsound hworkers
    (fun _ hgroup => ne_nil_of_mem_groupJobs hgroup)
    (fun group hgroup job hjob => hjobs job (mem_of_mem_groupJobs hgroup hjob))
    (fun group hgroup => ?_) (hclean.of_mem (fun job hjob => ?_) hfresh)
  · rw [flatten_groupJobs] at hran
    exact hran
  · refine (pairwise_of_mem_groupJobs hgroup).imp_of_mem fun {a b} ha hb hab => ?_
    exact not_inside_of_width_le (hjobs b (mem_of_mem_groupJobs hgroup hb))
      (hjobs a (mem_of_mem_groupJobs hgroup ha)) (UInt16.le_of_eq hab.symm)
  · rw [flatten_groupJobs] at hjob
    exact (sortJobs_perm jobs).mem_iff.1 hjob

end Parser
end ChartParsing
