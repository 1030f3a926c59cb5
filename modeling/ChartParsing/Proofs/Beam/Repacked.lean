import ChartParsing.Proofs.Beam.Selection
import ChartParsing.Proofs.Chart.Repacked

/-!
# Selections under two packings

A selection ranks entries by their non-terminals and scores, and breaks ties by the order in
which they come. It never looks at keys, so from tables that are alike it chooses alike
entries, whatever the figure of merit is and whatever merits were left from earlier cells.
-/

namespace ChartParsing.BeamSelector

/-- Two selectors have the same queue and merits, and have let in alike entries. -/
structure Alike (p q : Packing) (b c : BeamSelector) : Prop where
  queue : c.queue = b.queue
  queued : c.queued = b.queued
  admitted : c.admitted = b.admitted
  chosen : b.chosen.Alike p q c.chosen

/-- The states of two selections are alike. -/
def StateAlike (p q : Packing) (x y : BeamSelector × Scratch) : Prop :=
  x.1.Alike p q y.1 ∧ x.2.Alike p q y.2

variable {p q : Packing} {b c : BeamSelector} {s t : Scratch}

theorem alike_new (p q : Packing) (count : Nat) : (new count).Alike p q (new count) :=
  ⟨rfl, rfl, rfl, Scratch.alike_new p q count⟩

theorem Alike.queuedAt (h : b.Alike p q c) (nt : UInt16) : c.queuedAt nt = b.queuedAt nt := by
  unfold BeamSelector.queuedAt
  rw [h.queued]

theorem Alike.admittedAt (h : b.Alike p q c) (nt : UInt16) :
    c.admittedAt nt = b.admittedAt nt := by
  unfold BeamSelector.admittedAt
  rw [h.admitted]

theorem Alike.withQueue (h : b.Alike p q c) (queue : BeamQueue) :
    { b with queue }.Alike p q { c with queue } := ⟨rfl, h.queued, h.admitted, h.chosen⟩

theorem Alike.foldl_enqueue (h : b.Alike p q c) (hst : s.Alike p q t)
    (rank : UInt16 → Score → Score) (nts : List UInt16) :
    (nts.foldl (enqueue rank s) b).Alike p q (nts.foldl (enqueue rank t) c) := by
  induction nts generalizing b c with
  | nil => exact h
  | cons nt nts ih =>
    refine ih ⟨?_, ?_, h.admitted, h.chosen⟩
    · simp only [enqueue, h.queue, hst.insideOf]
    · simp only [enqueue, h.queued, hst.insideOf]

theorem Alike.accept (h : b.Alike p q c) {d e : ChartEntry} (hde : d.Alike p q e)
    (merit : Score) : (b.accept d merit).Alike p q (c.accept e merit) := by
  refine ⟨h.queue, h.queued, ?_, h.chosen.set hde⟩
  simp only [BeamSelector.accept, h.admitted, hde.nt]

theorem StateAlike.offer {x y : BeamSelector × Scratch} (h : StateAlike p q x y) (merit : Merit)
    (span : Span) {child child' : ChartEntry} (hchild : child.Alike p q child')
    (edge : UInt16 × Score) :
    StateAlike p q (offer merit span child x edge) (offer merit span child' y edge) := by
  obtain ⟨hb, hs⟩ := h
  unfold BeamSelector.offer
  dsimp only
  rw [hb.queuedAt, hb.admittedAt, hb.queue, hchild.nt, hchild.inside]
  split_ifs
  · generalize x.1.queue.replace edge.1
      (merit.score span.start span.stop edge.1 (edge.2 + child.inside)) = replaced
    obtain ⟨changed, queue⟩ := replaced
    cases changed with
    | true =>
      refine ⟨⟨rfl, ?_, hb.admitted, hb.chosen⟩, hs.set ⟨rfl, rfl, .unary child.nt, rfl⟩⟩
      simp only [hb.queued]
    | false => exact ⟨hb.withQueue queue, hs⟩
  · exact ⟨hb, hs⟩

theorem StateAlike.foldl_offer {x y : BeamSelector × Scratch} (h : StateAlike p q x y)
    (merit : Merit) (span : Span) {child child' : ChartEntry} (hchild : child.Alike p q child')
    (edges : List (UInt16 × Score)) :
    StateAlike p q (edges.foldl (BeamSelector.offer merit span child) x)
      (edges.foldl (BeamSelector.offer merit span child') y) := by
  induction edges generalizing x y with
  | nil => exact h
  | cons edge edges ih => exact ih (h.offer merit span hchild edge)

variable {g h : Grammar}

theorem StateAlike.weigh (hgh : g.Repacked h) {x y : BeamSelector × Scratch}
    (hxy : StateAlike p q x y) (merit : Merit) (span : Span) (places : Nat)
    (taken : UInt16 × Score) :
    (BeamSelector.weigh h merit span places taken y).1 =
        (BeamSelector.weigh g merit span places taken x).1 ∧
      StateAlike p q (BeamSelector.weigh g merit span places taken x).2
        (BeamSelector.weigh h merit span places taken y).2 := by
  have hentry := hxy.2.entryOf? taken.1
  unfold BeamSelector.weigh
  generalize x.2.entryOf? taken.1 = d at hentry ⊢
  generalize y.2.entryOf? taken.1 = e at hentry ⊢
  cases hentry with
  | none => exact ⟨rfl, hxy⟩
  | @some d e hentry =>
    have haccepted : StateAlike p q (x.1.accept d taken.2, x.2) (y.1.accept e taken.2, y.2) :=
      ⟨hxy.1.accept hentry taken.2, hxy.2⟩
    dsimp only
    rw [hxy.1.admittedAt, hgh.unaryByChild]
    split_ifs
    · exact ⟨rfl, haccepted⟩
    · exact ⟨rfl, hxy⟩
    · exact ⟨rfl, haccepted.foldl_offer merit span hentry _⟩

theorem StateAlike.choose (hgh : g.Repacked h) {x y : BeamSelector × Scratch}
    (hxy : StateAlike p q x y) (merit : Merit) (span : Span) (steps places : Nat) :
    StateAlike p q (BeamSelector.choose g merit span steps places x)
      (BeamSelector.choose h merit span steps places y) := by
  induction steps generalizing places x y with
  | zero =>
    simp only [BeamSelector.choose]
    exact hxy
  | succ steps ih =>
    cases places with
    | zero =>
      simp only [BeamSelector.choose]
      exact hxy
    | succ places =>
      obtain ⟨b, s⟩ := x
      obtain ⟨c, t⟩ := y
      rw [choose_succ, choose_succ, hxy.1.queue]
      cases b.queue.pop? with
      | none => exact hxy
      | some popped =>
        obtain ⟨taken, queue⟩ := popped
        have hpopped : StateAlike p q ({ b with queue }, s) ({ c with queue }, t) :=
          ⟨hxy.1.withQueue queue, hxy.2⟩
        obtain ⟨hplaces, hstate⟩ := hpopped.weigh hgh merit span places taken
        dsimp only
        rw [hplaces]
        exact ih hstate _

theorem Alike.prepare (hbc : b.Alike p q c) (hst : s.Alike p q t) (merit : Merit) (span : Span)
    (width held : Nat) :
    (prepare merit span width held s b).Alike p q (prepare merit span width held t c) := by
  unfold BeamSelector.prepare
  dsimp only
  rw [hbc.queue, hst.populated]
  have hqueued := fun queue rank => (hbc.withQueue queue).foldl_enqueue hst rank s.populated.toList
  split_ifs
  · refine ⟨?_, (hqueued _ _).queued, (hqueued _ _).admitted, (hqueued _ _).chosen⟩
    simp only [(hqueued _ _).queue]
  · exact hqueued _ _

theorem Alike.forget (hbc : b.Alike p q c) (hst : s.Alike p q t) :
    (b.forget s).Alike p q (c.forget t) := by
  refine ⟨hbc.queue, ?_, ?_, hbc.chosen⟩
  · simp only [BeamSelector.forget, hbc.queued, hst.populated]
  · simp only [BeamSelector.forget, hbc.admitted, hbc.chosen.populated]

/-- A selection chooses alike entries, and leaves everything alike. -/
theorem Alike.select (hgh : g.Repacked h) (hg : g.Coherent) (hbc : b.Alike p q c)
    (hst : s.Alike p q t) (hs : s.Valid g.size) (hb : b.Idle g.size) (merit : Merit)
    (span : Span) (width held : Nat) (cell cell' : Cell) :
    (b.select g merit span width held s cell).1.Alike p q
        (c.select h merit span width held t cell').1 ∧
      (b.select g merit span width held s cell).2.1.Alike p q
        (c.select h merit span width held t cell').2.1 ∧
      (b.select g merit span width held s cell).2.2.Alike p q
        (c.select h merit span width held t cell').2.2 := by
  have hprepared := hbc.prepare hst.sort merit span width held
  obtain ⟨hbusy, -⟩ := choose_keeps hg merit span
    (BeamSelector.prepare merit span width held s.sort b).queue.capacity width
    (prepare_keeps merit span width held hs.sort hb).1
  have hstart : StateAlike p q (BeamSelector.prepare merit span width held s.sort b, s.sort)
      (BeamSelector.prepare merit span width held t.sort c, t.sort) := ⟨hprepared, hst.sort⟩
  have hchosen := StateAlike.choose hgh hstart merit span
    (BeamSelector.prepare merit span width held s.sort b).queue.capacity width
  rw [select_eq, select_eq]
  dsimp only
  rw [hprepared.queue]
  generalize choose g merit span _ width
    (BeamSelector.prepare merit span width held s.sort b, s.sort) = state at hbusy hchosen ⊢
  generalize choose h merit span _ width
    (BeamSelector.prepare merit span width held t.sort c, t.sort) = state' at hchosen ⊢
  obtain ⟨hselector, hscratch⟩ := hchosen
  have hforgot := hselector.forget hscratch
  refine ⟨hselector.chosen.finalizeInto hbusy.chosen cell cell', hscratch, hforgot.queue,
    hforgot.queued, hforgot.admitted, hselector.chosen.sort.reset⟩

end ChartParsing.BeamSelector
