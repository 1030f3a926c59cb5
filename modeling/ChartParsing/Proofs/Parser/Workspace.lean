import ChartParsing.Parser.Workspace
import ChartParsing.Proofs.Beam.Selection
import ChartParsing.Proofs.Chart.UnaryStep

/-!
# Workspaces

Whatever a workspace was used for, it is left so that the next cell is filled as with a
new one; only a selection can find merits that were not forgotten. A cell depends on the
cells of the shorter spans it can be split into, and on nothing else of the chart.
-/

namespace ChartParsing

namespace Workspace

/-- The tables of a workspace are in order between cells. -/
structure Sound (g : Grammar) (w : Workspace) : Prop where
  pairs : w.pairs.Valid g.packing.size
  scratch : w.scratch.Valid g.size
  unaries : w.unaries.Valid g.size
  beam : w.beam.Idle g.size

/-- No merit is left in a workspace. -/
def Fresh (w : Workspace) : Prop := w.beam.Fresh

theorem sound_new (g : Grammar) : (new g).Sound g :=
  ⟨PairTable.valid_new _, Scratch.valid_new _, Scratch.valid_new _, BeamSelector.idle_new _⟩

theorem fresh_new (g : Grammar) : (new g).Fresh := BeamSelector.fresh_new _

theorem Sound.keep {g : Grammar} {w : Workspace} (h : w.Sound g) (cell : Cell) :
    (w.keep cell).Sound g := ⟨h.pairs, h.scratch, h.unaries, h.beam⟩

/-- The number of child pairs of a span. -/
def pairsOf (g : Grammar) (chart : Chart) (span : Span) : Nat :=
  if span.width = 1 then 0 else (PairTable.ofSpan g chart span).size

variable {g : Grammar} {chart : Chart} {words : Array UInt32} {size : Nat} {w v : Workspace}

/-- What is derived does not depend on what was derived before. -/
theorem Sound.derive (chart : Chart) (words : Array UInt32) (hg : g.Coherent) (hw : w.Sound g)
    {span : Span} (hspan : span.within size = true) :
    (w.derive g chart words span).1 = pairsOf g chart span ∧
      (w.derive g chart words span).2.Sound g ∧
      (w.derive g chart words span).2.beam = w.beam ∧
      (w.derive g chart words span).2.scratch.Agree (Scratch.derived g chart words span) := by
  have hreset := hw.scratch.reset
  have hagree : (Scratch.updateAll (Scratch.derivedEntries g chart words span)
      w.scratch.reset).Agree (Scratch.derived g chart words span) :=
    (hreset.1.agree_of_empty (Scratch.valid_new _) hreset.2.1 rfl).updateAll hreset.1
      (Scratch.valid_new _) (Scratch.derivedEntries_lt hg chart words span)
  have hvalid := hreset.1.updateAll (Scratch.derivedEntries_lt hg chart words span)
  have hpairs := PairTable.valid_ofSpan hg chart hspan
  have hclear : w.pairs.clear.addSpan g chart span = PairTable.ofSpan g chart span := by
    rw [hw.pairs.clear_eq]
    rfl
  unfold Scratch.derivedEntries at hagree hvalid
  unfold Workspace.derive pairsOf
  dsimp only
  split_ifs at hagree hvalid ⊢ with hsingle
  · rw [← Scratch.addWord_eq] at hagree hvalid
    exact ⟨rfl, ⟨hw.pairs, hvalid, hw.unaries, hw.beam⟩, rfl, hagree⟩
  · rw [← Scratch.addPairs_eq g hpairs] at hagree hvalid
    rw [hclear]
    exact ⟨rfl, ⟨hpairs, hvalid, hw.unaries, hw.beam⟩, rfl, hagree⟩

/-- Filling a cell leaves the workspace in order, and fresh if it was fresh and what is
absent is not ranked above itself. -/
theorem Sound.finish (hg : g.Coherent) (hw : w.Sound g) (merit : Merit) (job : CellJob)
    (cell : Cell) :
    (w.finish g merit job cell).1.Ordered ∧ (w.finish g merit job cell).2.Sound g ∧
      (merit.Grounded ∨ job.limit = none → w.Fresh → (w.finish g merit job cell).2.Fresh) := by
  unfold Workspace.finish
  cases hlimit : job.limit with
  | some width =>
    obtain ⟨hordered, hscratch, hbeam, hfresh⟩ :=
      BeamSelector.select_keeps hg merit job.span width job.held cell hw.scratch hw.beam
    refine ⟨hordered, ⟨hw.pairs, hscratch, hw.unaries, hbeam⟩, fun h hw' => ?_⟩
    rcases h with hmerit | hnone
    · exact hfresh hmerit hw'
    · cases hnone
  | none =>
    have hvalid := (Scratch.entryOf?_addUnaries job.span.stop hg hw.scratch hw.unaries).1
    have hunaries : (w.scratch.addUnaries g job.span.stop w.unaries).2.Valid g.size := by
      rw [Scratch.addUnaries_snd]
      exact UnaryStep.valid_candidates _ hg hw.unaries
    exact ⟨hvalid.ordered_finalizeInto cell, ⟨hw.pairs, hvalid.sort, hunaries, hw.beam⟩,
      fun _ h => h⟩

/-- Two workspaces that agree on what is derived give the same cell, if there is no limit
on its entries or neither has merits left. -/
theorem Sound.finish_agree (hg : g.Coherent) (hw : w.Sound g) (hv : v.Sound g)
    (h : w.scratch.Agree v.scratch) (merit : Merit) (job : CellJob)
    (hfresh : job.limit = none ∨ (w.Fresh ∧ v.Fresh)) (cell cell' : Cell) :
    (w.finish g merit job cell).1 = (v.finish g merit job cell').1 := by
  unfold Workspace.finish
  cases hlimit : job.limit with
  | some width =>
    rcases hfresh with hnone | ⟨hw', hv'⟩
    · rw [hlimit] at hnone
      cases hnone
    · exact BeamSelector.select_agree hg merit job.span width job.held cell cell' hw.scratch
        hv.scratch h hw.beam hv.beam hw' hv'
  | none =>
    have hvalid := (Scratch.entryOf?_addUnaries job.span.stop hg hw.scratch hw.unaries).1
    have hvalid' := (Scratch.entryOf?_addUnaries job.span.stop hg hv.scratch hv.unaries).1
    exact hvalid.finalizeInto_congr hvalid'
      (h.entryOf?_addUnaries hg hw.scratch hv.scratch hw.unaries hv.unaries) cell cell'

/-- The cell of a job filled from a chart with a new workspace. -/
def cellFor (g : Grammar) (merit : Merit) (chart : Chart) (words : Array UInt32)
    (job : CellJob) : Cell := ((new g).fill g merit chart words job).1

/-- What is counted while a cell is filled with a new workspace. -/
def statsFor (g : Grammar) (merit : Merit) (chart : Chart) (words : Array UInt32)
    (job : CellJob) : ParseStats := ((new g).fill g merit chart words job).2.1

theorem Sound.fill_agree (hg : g.Coherent) (hw : w.Sound g) (hv : v.Sound g) (merit : Merit)
    {job : CellJob} (hspan : job.span.within size = true)
    (hfresh : job.limit = none ∨ (w.Fresh ∧ v.Fresh)) :
    (w.fill g merit chart words job).1 = (v.fill g merit chart words job).1 ∧
      (w.fill g merit chart words job).2.1 = (v.fill g merit chart words job).2.1 := by
  have hw' : ({ w with spare := w.spare.tail } : Workspace).Sound g :=
    ⟨hw.pairs, hw.scratch, hw.unaries, hw.beam⟩
  have hv' : ({ v with spare := v.spare.tail } : Workspace).Sound g :=
    ⟨hv.pairs, hv.scratch, hv.unaries, hv.beam⟩
  obtain ⟨hpairs, hsound, hbeam, hagree⟩ :=
    hw'.derive chart words hg hspan
  obtain ⟨hpairs', hsound', hbeam', hagree'⟩ :=
    hv'.derive chart words hg hspan
  have hcell := hsound.finish_agree hg hsound'
    ⟨hagree.populated.trans hagree'.populated.symm,
      fun nt => (hagree.entry nt).trans (hagree'.entry nt).symm⟩ merit job
    (by unfold Fresh; rw [hbeam, hbeam']; exact hfresh) (w.spare.headD ∅) (v.spare.headD ∅)
  unfold fill
  dsimp only
  rw [hcell, hpairs, hpairs']
  exact ⟨rfl, rfl⟩

/-- Filling a cell gives what a new workspace gives, and leaves the workspace in order. -/
theorem Sound.fill (chart : Chart) (words : Array UInt32) (hg : g.Coherent) (hw : w.Sound g)
    (merit : Merit) {job : CellJob} (hspan : job.span.within size = true)
    (hfresh : job.limit = none ∨ w.Fresh) :
    (w.fill g merit chart words job).1 = cellFor g merit chart words job ∧
      (w.fill g merit chart words job).2.1 = statsFor g merit chart words job := by
  refine hw.fill_agree hg (sound_new g) merit hspan ?_
  rcases hfresh with hnone | hfresh
  · exact Or.inl hnone
  · exact Or.inr ⟨hfresh, fresh_new g⟩

theorem Sound.fill_keeps (chart : Chart) (words : Array UInt32) (hg : g.Coherent)
    (hw : w.Sound g) (merit : Merit) {job : CellJob} (hspan : job.span.within size = true) :
    (w.fill g merit chart words job).1.Ordered ∧
      (w.fill g merit chart words job).2.2.Sound g ∧
      (merit.Grounded ∨ job.limit = none → w.Fresh →
        (w.fill g merit chart words job).2.2.Fresh) := by
  have hw' : ({ w with spare := w.spare.tail } : Workspace).Sound g :=
    ⟨hw.pairs, hw.scratch, hw.unaries, hw.beam⟩
  obtain ⟨-, hsound, hbeam, -⟩ := hw'.derive chart words hg hspan
  obtain ⟨hordered, hsound', hfresh⟩ := hsound.finish hg merit job (w.spare.headD ∅)
  refine ⟨hordered, hsound', fun h hw'' => hfresh h ?_⟩
  unfold Fresh
  rw [hbeam]
  exact hw''

theorem ordered_cellFor (hg : g.Coherent) (merit : Merit) (chart : Chart) (words : Array UInt32)
    {job : CellJob} (hspan : job.span.within size = true) :
    (cellFor g merit chart words job).Ordered :=
  ((sound_new g).fill_keeps chart words hg merit hspan).1

/-- The counts of one cell. -/
theorem statsFor_eq (hg : g.Coherent) (merit : Merit) (chart : Chart) (words : Array UInt32)
    {job : CellJob} (hspan : job.span.within size = true) :
    statsFor g merit chart words job =
      ⟨0, 1, pairsOf g chart job.span, (cellFor g merit chart words job).size⟩ := by
  obtain ⟨hpairs, -⟩ := (sound_new g).derive chart words hg hspan
  unfold statsFor cellFor Workspace.fill
  dsimp only
  rw [← hpairs]
  rfl

/-- Without a limit a cell holds what is derived and one step of unary rules. -/
theorem get?_cellFor (hg : g.Coherent) (merit : Merit) (chart : Chart) (words : Array UInt32)
    {job : CellJob} (hspan : job.span.within size = true) (hlimit : job.limit = none)
    (nt : UInt16) : (cellFor g merit chart words job).get? nt =
      ((Scratch.derived g chart words job.span).addUnaries g job.span.stop
        (Scratch.new g.size)).1.entryOf? nt := by
  obtain ⟨-, hsound, -, hagree⟩ :=
    (sound_new g).derive chart words hg hspan
  have hvalid := (Scratch.entryOf?_addUnaries job.span.stop hg hsound.scratch
    hsound.unaries).1
  rw [← hagree.entryOf?_addUnaries hg hsound.scratch (Scratch.valid_derived hg chart words job.span)
    hsound.unaries (Scratch.valid_new g.size), ← hvalid.get?_finalizeInto ∅]
  unfold cellFor Workspace.fill finish
  rw [hlimit]
  rfl

/-- Filling a cell looks at no cells but those that the span can be split into. -/
theorem fill_local (g : Grammar) (merit : Merit) (words : Array UInt32) (job : CellJob)
    (w : Workspace) {c d : Chart}
    (h : ∀ m ∈ job.span.midpoints, c.cell ⟨job.span.start, m⟩ = d.cell ⟨job.span.start, m⟩ ∧
      c.cell ⟨m, job.span.stop⟩ = d.cell ⟨m, job.span.stop⟩) :
    w.fill g merit c words job = w.fill g merit d words job := by
  have hoffers : PairTable.offersFor g c job.span = PairTable.offersFor g d job.span := by
    unfold PairTable.offersFor
    apply List.flatMap_congr
    intro m hm
    rw [(h m hm).1, (h m hm).2]
  have hderive (w : Workspace) : w.derive g c words job.span = w.derive g d words job.span := by
    unfold Workspace.derive
    rw [PairTable.addSpan_eq, PairTable.addSpan_eq, hoffers]
  unfold Workspace.fill
  dsimp only
  rw [hderive]

end Workspace
end ChartParsing
