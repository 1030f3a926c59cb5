import ChartParsing.Parser.Basic
import ChartParsing.Proofs.Parser.Order

/-!
# Runs

A run puts the cells of its jobs in place one after the other, until it is through or the
time is over. It leaves the workspace in order for the next one.
-/

namespace ChartParsing

namespace Parser

open Workspace Chart

/-- A run of jobs from a chart, with what is counted, its outcome and the chart it leaves.
It is cut short only if there is a limit on the time. -/
inductive Ran (g : Grammar) (merit : Merit) (words : Array UInt32) (limit : Option Nat) :
    List CellJob → Chart → ParseStats → Except ParseError ParseStats → Chart → Prop
  | done {chart stats} : Ran g merit words limit [] chart stats (.ok stats) chart
  | cancelled {job jobs chart stats elapsed} (h : limit ≠ none) :
      Ran g merit words limit (job :: jobs) chart stats (.error (.cancelled elapsed)) chart
  | step {job jobs chart stats outcome after}
      (h : Ran g merit words limit jobs (put g merit words chart job)
        (stats.merge (statsFor g merit chart words job)) outcome after) :
      Ran g merit words limit (job :: jobs) chart stats outcome after

section Ran

variable {g : Grammar} {merit : Merit} {words : Array UInt32} {limit : Option Nat}
  {jobs : List CellJob} {chart after : Chart} {stats : ParseStats}
  {outcome : Except ParseError ParseStats}

theorem Ran.append {group : List CellJob}
    (h : Ran g merit words limit jobs (putAll g merit words group chart)
      (statsAlong g merit words group chart stats) outcome after) :
    Ran g merit words limit (group ++ jobs) chart stats outcome after := by
  induction group generalizing chart stats with
  | nil => exact h
  | cons job group ih => exact .step (ih h)

/-- A run has done a first part of its jobs, and all of them if it was not cut short. -/
theorem Ran.exists_done (h : Ran g merit words limit jobs chart stats outcome after) :
    ∃ done rest, jobs = done ++ rest ∧ after = putAll g merit words done chart ∧
      ((rest = [] ∧ outcome = .ok (statsAlong g merit words done chart stats)) ∨
        (rest ≠ [] ∧ limit ≠ none ∧ ∃ elapsed, outcome = .error (.cancelled elapsed))) := by
  induction h with
  | done => exact ⟨[], [], rfl, rfl, Or.inl ⟨rfl, rfl⟩⟩
  | @cancelled job jobs chart stats elapsed hlimit =>
    exact ⟨[], job :: jobs, rfl, rfl, Or.inr ⟨List.cons_ne_nil _ _, hlimit, elapsed, rfl⟩⟩
  | @step job jobs chart stats outcome after _ ih =>
    obtain ⟨done, rest, rfl, hafter, houtcome⟩ := ih
    exact ⟨job :: done, rest, rfl, hafter, houtcome⟩

/-- Without a limit on the time a run is never cut short. -/
theorem Ran.eq_of_unlimited (h : Ran g merit words none jobs chart stats outcome after) :
    after = putAll g merit words jobs chart ∧
      outcome = .ok (statsAlong g merit words jobs chart stats) := by
  obtain ⟨done, rest, rfl, hafter, ⟨rfl, houtcome⟩ | ⟨-, hlimit, -⟩⟩ := h.exists_done
  · rw [List.append_nil]
    exact ⟨hafter, houtcome⟩
  · exact absurd rfl hlimit

end Ran

/-- The workspaces of a parser are in order. -/
structure Sound (p : Parser) : Prop where
  workspace : p.workspace.Sound p.grammar
  workers : ∀ w ∈ p.workers, w.Sound p.grammar

/-- No merit is left in a workspace of a parser. -/
structure Fresh (p : Parser) : Prop where
  workspace : p.workspace.Fresh
  workers : ∀ w ∈ p.workers, w.Fresh

/-- What a run leaves as it was. -/
structure Kept (p q : Parser) : Prop where
  grammar : q.grammar = p.grammar
  options : q.options = p.options
  vocabulary : q.vocabulary = p.vocabulary
  words : q.words = p.words
  size : q.chart.size = p.chart.size

theorem Kept.refl (p : Parser) : Kept p p := ⟨rfl, rfl, rfl, rfl, rfl⟩

theorem Kept.trans {p q r : Parser} (h : Kept p q) (h' : Kept q r) : Kept p r :=
  ⟨h'.grammar.trans h.grammar, h'.options.trans h.options, h'.vocabulary.trans h.vocabulary,
    h'.words.trans h.words, h'.size.trans h.size⟩

/-- No cell is limited, or no merit is left where it could be found. -/
def Clean (merit : Merit) (jobs : List CellJob) (fresh : Prop) : Prop :=
  (∀ job ∈ jobs, job.limit = none) ∨ (merit.Grounded ∧ fresh)

/-- No selection leaves a merit behind. -/
def Tidy (merit : Merit) (jobs : List CellJob) : Prop :=
  merit.Grounded ∨ ∀ job ∈ jobs, job.limit = none

theorem checkTime_eq (o : ParserOptions) (elapsed : Nat) :
    checkTime o elapsed = .ok () ∨
      (o.timeLimit ≠ none ∧ checkTime o elapsed = .error (.cancelled elapsed)) := by
  unfold checkTime
  cases o.timeLimit with
  | none => exact Or.inl rfl
  | some limit =>
    dsimp only
    split_ifs
    · exact Or.inr ⟨Option.some_ne_none _, rfl⟩
    · exact Or.inl rfl

theorem checkTime_of_unlimited {o : ParserOptions} (h : o.timeLimit = none) (elapsed : Nat) :
    checkTime o elapsed = .ok () := by
  simp [checkTime, h]

variable {p : Parser} {merit : Merit} {clock : Clock}

theorem runJob_keeps (merit : Merit) (hg : p.grammar.Coherent) (hp : p.Sound) {job : CellJob}
    (hjob : job.span.within p.chart.size = true) :
    (p.runJob merit job).2.Sound ∧ Kept p (p.runJob merit job).2 ∧
      (merit.Grounded ∨ job.limit = none → p.Fresh → (p.runJob merit job).2.Fresh) := by
  obtain ⟨-, hsound, hfresh⟩ :=
    hp.workspace.fill_keeps p.chart p.words hg merit hjob
  exact ⟨⟨hsound.keep _, hp.workers⟩, ⟨rfl, rfl, rfl, rfl, rfl⟩,
    fun h hp' => ⟨hfresh h hp'.workspace, hp'.workers⟩⟩

theorem runJob_eq (merit : Merit) (hg : p.grammar.Coherent) (hp : p.Sound) {job : CellJob}
    (hjob : job.span.within p.chart.size = true) (hclean : job.limit = none ∨ p.Fresh) :
    (p.runJob merit job).1 = statsFor p.grammar merit p.chart p.words job ∧
      (p.runJob merit job).2.chart = put p.grammar merit p.words p.chart job := by
  obtain ⟨hcell, hstats⟩ := hp.workspace.fill p.chart p.words hg merit hjob
    (hclean.imp_right fun h => h.workspace)
  unfold runJob put
  dsimp only
  rw [hcell, hstats]
  exact ⟨rfl, rfl⟩

theorem Clean.head {job : CellJob} {jobs : List CellJob} {fresh : Prop}
    (h : Clean merit (job :: jobs) fresh) : job.limit = none ∨ fresh :=
  h.imp (fun h => h job List.mem_cons_self) fun h => h.2

theorem Clean.tail {job : CellJob} {jobs : List CellJob} {fresh fresh' : Prop}
    (h : Clean merit (job :: jobs) fresh)
    (hfresh : merit.Grounded ∨ job.limit = none → fresh → fresh') : Clean merit jobs fresh' :=
  h.imp (fun h other hother => h other (List.mem_cons_of_mem _ hother))
    fun h => ⟨h.1, hfresh (Or.inl h.1) h.2⟩

theorem Tidy.cons {job : CellJob} {jobs : List CellJob} (h : Tidy merit (job :: jobs)) :
    (merit.Grounded ∨ job.limit = none) ∧ Tidy merit jobs :=
  ⟨h.imp_right fun h => h job List.mem_cons_self,
    h.imp_right fun h other hother => h other (List.mem_cons_of_mem _ hother)⟩

/-- What a serial run leaves in order, whatever it finds. -/
theorem runSerial_keeps (looks : Nat) (jobs : List CellJob) (stats : ParseStats)
    (hg : p.grammar.Coherent) (hp : p.Sound)
    (hjobs : ∀ job ∈ jobs, job.span.within p.chart.size = true) :
    (p.runSerial merit clock looks jobs stats).2.Sound ∧
      Kept p (p.runSerial merit clock looks jobs stats).2 ∧
      (Tidy merit jobs → p.Fresh → (p.runSerial merit clock looks jobs stats).2.Fresh) := by
  induction jobs generalizing p looks stats with
  | nil => exact ⟨hp, Kept.refl p, fun _ h => h⟩
  | cons job jobs ih =>
    unfold runSerial
    rcases checkTime_eq p.options (clock looks) with hok | ⟨-, herror⟩
    · rw [hok]
      obtain ⟨hsound, hkept, hfresh⟩ :=
        runJob_keeps merit hg hp (hjobs job List.mem_cons_self)
      obtain ⟨hsound', hkept', hfresh'⟩ := ih (looks + 1) (stats.merge (p.runJob merit job).1)
        (by rw [hkept.grammar]; exact hg) hsound
        (fun other hother => by rw [hkept.size]; exact hjobs other (List.mem_cons_of_mem _ hother))
      exact ⟨hsound', hkept.trans hkept', fun h hp' =>
        hfresh' h.cons.2 (hfresh h.cons.1 hp')⟩
    · rw [herror]
      exact ⟨hp, Kept.refl p, fun _ h => h⟩

/-- A serial run puts the cells of its jobs in place one after the other. -/
theorem runSerial_ran (looks : Nat) {jobs : List CellJob} (stats : ParseStats)
    (hg : p.grammar.Coherent) (hp : p.Sound)
    (hjobs : ∀ job ∈ jobs, job.span.within p.chart.size = true)
    (hclean : Clean merit jobs p.Fresh) :
    Ran p.grammar merit p.words p.options.timeLimit jobs p.chart stats
      (p.runSerial merit clock looks jobs stats).1
      (p.runSerial merit clock looks jobs stats).2.chart := by
  induction jobs generalizing p looks stats with
  | nil => exact .done
  | cons job jobs ih =>
    unfold runSerial
    rcases checkTime_eq p.options (clock looks) with hok | ⟨hlimit, herror⟩
    · rw [hok]
      have hjob := hjobs job List.mem_cons_self
      obtain ⟨hsound, hkept, hfresh⟩ := runJob_keeps merit hg hp hjob
      obtain ⟨hstats, hchart⟩ := runJob_eq merit hg hp hjob hclean.head
      have ih := ih (looks + 1) (stats.merge (p.runJob merit job).1)
        (by rw [hkept.grammar]; exact hg) hsound
        (fun other hother => by rw [hkept.size]; exact hjobs other (List.mem_cons_of_mem _ hother))
        (hclean.tail hfresh)
      rw [hkept.grammar, hkept.words, hkept.options, hchart] at ih
      refine .step ?_
      rw [← hstats]
      exact ih
    · rw [herror]
      exact .cancelled hlimit

end Parser
end ChartParsing
