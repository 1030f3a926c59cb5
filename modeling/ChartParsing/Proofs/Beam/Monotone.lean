import ChartParsing.Proofs.Beam.Selection
import ChartParsing.Proofs.Chart.Grounded
import ChartParsing.Proofs.Grammar.Making
import ChartParsing.Proofs.Score.Bounded

/-!
# Selections without circles

A parent that was let in can get a better edge after its own parents were derived from the
worse one, so the pointers of a selection do not simply lead to what was let in earlier. They
still run in no circle if a figure of merit is monotone and no unary rule raises a score: a
pointer then never leads to a lower score, and an edge is only exchanged for one with a
higher score.
-/

namespace ChartParsing

/-- A figure of merit that ranks a non-terminal over a span the higher, the higher its score
is, and single words in no other way. It is a number wherever the score is. -/
structure Merit.Monotone (merit : Merit) : Prop where
  lexicalScore : merit.lexicalScore = merit.score
  le : ∀ start stop nt {x y : Score}, x ≤ y →
    merit.score start stop nt x ≤ merit.score start stop nt y

theorem Merit.monotone_inside : Merit.inside.Monotone := ⟨rfl, fun _ _ _ _ _ h => h⟩

/-- It is enough to ask whether a score is below a bound. -/
theorem Merit.monotone_below (bound : Score) :
    (Merit.ofScore fun _ _ _ x => if x < bound then 0 else 1).Monotone := by
  refine ⟨rfl, fun _ _ _ x y hle => ?_⟩
  change (if x < bound then (0 : Score) else 1) ≤ if y < bound then 0 else 1
  by_cases hy : y < bound
  · rw [if_pos (Score.lt_of_le_of_lt hle hy), if_pos hy]
    exact Score.le_self rfl
  · rw [if_neg hy]
    split_ifs
    · decide +kernel
    · decide +kernel

/-- What is ranked higher has a higher score. -/
theorem Merit.Monotone.lt {merit : Merit} (h : merit.Monotone) {start stop nt : UInt16}
    {x y : Score} (hx : x.isNaN = false) (hy : y.isNaN = false)
    (hlt : merit.score start stop nt x < merit.score start stop nt y) : x < y := by
  by_contra hnot
  exact Score.not_lt_of_le (h.le start stop nt (Score.le_of_not_lt hx hy hnot)) hlt

/-- No unary rule raises a score. -/
def Grammar.Lowering (g : Grammar) : Prop :=
  ∀ parent child rule, g.HasUnary parent child rule → rule ≤ 0

theorem Grammar.Certain.lowering {g : Grammar} (h : g.Certain) : g.Lowering := by
  intro parent child rule hrule
  rw [h.unary hrule]
  exact Score.le_self rfl

namespace BeamSelector

/-- An entry is another one, or has a higher score. -/
def Improves (e d : ChartEntry) : Prop := e = d ∨ d.inside < e.inside

/-- Improving an entry lowers nothing that leads to it. -/
theorem Improves.le {e d : ChartEntry} (h : Improves e d) {x : Score} (hx : x ≤ d.inside) :
    x ≤ e.inside := by
  rcases h with rfl | hlt
  · exact hx
  · exact Score.le_trans hx (Score.le_of_lt hlt)

/-- An entry that was derived before the selection, or by a unary rule from one let in
whose score is not lower. -/
def Hangs (derived chosen : Scratch) (e : ChartEntry) : Prop :=
  (derived.entryOf? e.nt = some e ∧ ∀ child, e.children ≠ .unary child) ∨
    ∃ child d, e.children = .unary child ∧ chosen.entryOf? child = some d ∧ e.inside ≤ d.inside

/-- What holds while entries are let in: all scores are finite, only a higher one is ranked
above what is queued, what would be exchanged has a lower one, and no unary pointer leads to a
lower one or in a circle. -/
structure Anchored (merit : Merit) (span : Span) (derived : Scratch) (b : BeamSelector)
    (s : Scratch) : Prop where
  finite : ∀ nt e, s.entryOf? nt = some e → Score.IsFinite e.inside
  above : ∀ nt e y, s.entryOf? nt = some e → y.isNaN = false →
    b.queuedAt nt < merit.score span.start span.stop nt y → e.inside < y
  improves : ∀ nt d, b.chosen.entryOf? nt = some d →
    ∃ e, s.entryOf? nt = some e ∧ Improves e d
  hangs : ∀ nt e, s.entryOf? nt = some e → Hangs derived b.chosen e
  chosen : ∀ nt e, b.chosen.entryOf? nt = some e → Hangs derived b.chosen e
  grounded : ∀ nt e, b.chosen.entryOf? nt = some e → Grounded b.chosen.entryOf? nt

variable {merit : Merit} {span : Span} {derived s : Scratch} {b : BeamSelector} {count : Nat}

theorem Anchored.ascending (h : Anchored merit span derived b s) :
    Ascending b.chosen.entryOf? := by
  intro nt e child he hchild
  rcases h.chosen nt e he with ⟨-, hplain⟩ | ⟨child', d, hchild', hd, hle⟩
  · exact absurd hchild (hplain child)
  · rw [hchild] at hchild'
    cases hchild'
    exact ⟨d, hd, hle⟩

/-! ## Letting an entry in -/

theorem entryOf?_accept (hb : b.Busy count s) {e : ChartEntry} (hlt : e.nt.toNat < count)
    (hne : e.inside ≠ Score.absent) (rank : Score) (nt : UInt16) :
    (b.accept e rank).chosen.entryOf? nt =
      if nt = e.nt then some e else b.chosen.entryOf? nt := by
  unfold accept
  dsimp only
  rw [Scratch.set_eq, if_neg hne, hb.chosen.entryOf?_write hlt hne]

/-- What hangs on an entry hangs on a better one. -/
theorem Hangs.accept {chosen chosen' : Scratch} {e d : ChartEntry}
    (hentry : ∀ nt, chosen'.entryOf? nt = if nt = e.nt then some e else chosen.entryOf? nt)
    (himproves : ∀ d', chosen.entryOf? e.nt = some d' → Improves e d')
    (h : Hangs derived chosen d) : Hangs derived chosen' d := by
  refine h.imp_right ?_
  rintro ⟨child, c, hchild, hc, hle⟩
  by_cases heq : child = e.nt
  · rw [heq] at hc
    exact ⟨child, e, hchild, by rw [hentry, if_pos heq], (himproves c hc).le hle⟩
  · exact ⟨child, c, hchild, by rw [hentry, if_neg heq]; exact hc, hle⟩

/-- An entry that is let in, or exchanged for a better one, is grounded: its chain of
pointers does not come by the entry that was there, whose score is lower. -/
theorem grounded_accept {look look' : UInt16 → Option ChartEntry} {e : ChartEntry}
    (hentry : ∀ nt, look' nt = if nt = e.nt then some e else look nt)
    (hascending : Ascending look) (hgrounded : ∀ nt d, look nt = some d → Grounded look nt)
    (himproves : ∀ d, look e.nt = some d → Improves e d)
    (hchild : ∀ child, e.children = .unary child → ∃ d, look child = some d ∧
      e.inside ≤ d.inside) : Grounded look' e.nt := by
  have hself : look' e.nt = some e := by rw [hentry, if_pos rfl]
  have hsame : ∀ nt, nt ≠ e.nt → look' nt = look nt := fun nt hne => by rw [hentry, if_neg hne]
  by_cases hunary : ∃ child, e.children = .unary child
  · obtain ⟨child, hc⟩ := hunary
    obtain ⟨c, hlook, hle⟩ := hchild child hc
    obtain ⟨steps, hsteps⟩ := hgrounded child c hlook
    cases hold : look e.nt with
    | none =>
      -- no pointer leads to an entry that was not there
      refine .unary hself hc ⟨steps, hsteps.mono fun nt d hd => ?_⟩
      rw [hsame nt, hd]
      rintro rfl
      rw [hold] at hd
      cases hd
    | some d =>
      rcases himproves d hold with rfl | hlt
      · have hall : look' = look := by
          funext nt
          rw [hentry]
          split_ifs with heq
          · rw [heq, hold]
          · rfl
        rw [hall]
        exact hgrounded e.nt e hold
      · rcases hsteps.misses hsame hascending hold hlook (Score.le_iff.1 hle).2.1 with
          hmisses | hle'
        · exact .unary hself hc hmisses
        · exact absurd hlt (Score.not_lt_of_le (Score.le_trans hle hle'))
  · exact .plain hself fun child hc => hunary ⟨child, hc⟩

theorem Anchored.accept (h : Anchored merit span derived b s) (hb : b.Busy count s)
    {e : ChartEntry} (he : s.entryOf? e.nt = some e) (rank : Score) :
    Anchored merit span derived (b.accept e rank) s := by
  have hlt : e.nt.toNat < count := hb.scratch.lt ((hb.scratch.mem_iff e.nt).2 ⟨e, he⟩)
  have hne := Scratch.present_of_entryOf? he
  have hentry := entryOf?_accept hb hlt hne rank
  have himproves : ∀ d, b.chosen.entryOf? e.nt = some d → Improves e d := by
    intro d hd
    obtain ⟨e', he', h'⟩ := h.improves e.nt d hd
    rw [he] at he'
    cases he'
    exact h'
  have htop : Grounded (b.accept e rank).chosen.entryOf? e.nt := by
    refine grounded_accept hentry h.ascending h.grounded himproves fun child hchild => ?_
    rcases h.hangs e.nt e he with ⟨-, hplain⟩ | ⟨child', d, hchild', hd, hle⟩
    · exact absurd hchild (hplain child)
    · rw [hchild] at hchild'
      cases hchild'
      exact ⟨d, hd, hle⟩
  refine ⟨h.finite, h.above, fun nt d hd => ?_, fun nt d hd => ?_, fun nt d hd => ?_,
    fun nt d hd => ?_⟩
  · rw [hentry] at hd
    split_ifs at hd with heq
    · cases hd
      exact ⟨_, heq ▸ he, Or.inl rfl⟩
    · exact h.improves nt d hd
  · exact (h.hangs nt d hd).accept hentry himproves
  · rw [hentry] at hd
    split_ifs at hd with heq
    · cases hd
      exact (h.hangs _ _ he).accept hentry himproves
    · exact (h.chosen nt d hd).accept hentry himproves
  · rw [hentry] at hd
    split_ifs at hd with heq
    · rwa [heq]
    · obtain ⟨steps, hsteps⟩ := h.grounded nt d hd
      exact hsteps.exchange (fun m hm => by rw [hentry, if_neg hm]) htop

/-! ## Offering a unary parent -/

theorem Anchored.queue (h : Anchored merit span derived b s) (queue : BeamQueue) :
    Anchored merit span derived { b with queue } s :=
  ⟨h.finite, h.above, h.improves, h.hangs, h.chosen, h.grounded⟩

/-- An edge that is ranked above what is queued improves on what its parent has, so it can
be entered for it. -/
theorem Anchored.enter (hmerit : merit.Monotone) (h : Anchored merit span derived b s)
    (hb : b.Busy count s) {e : ChartEntry} (hlt : e.nt.toNat < count)
    (hranked : b.queuedAt e.nt < merit.score span.start span.stop e.nt e.inside)
    (hfinite : e.inside = Score.absent ∨ Score.IsFinite e.inside)
    (hhangs : Hangs derived b.chosen e) :
    Anchored merit span derived { b with
      queued := b.queued.setIfInBounds e.nt.toNat
        (merit.score span.start span.stop e.nt e.inside) } (s.set e) := by
  have hqueued (nt : UInt16) : ({ b with
      queued := b.queued.setIfInBounds e.nt.toNat
        (merit.score span.start span.stop e.nt e.inside) } : BeamSelector).queuedAt nt =
      if nt = e.nt then merit.score span.start span.stop e.nt e.inside else b.queuedAt nt :=
    queuedAt_set hb.queued_size hlt _ nt
  have hnumber := Score.isNaN_of_absent_or_finite hfinite
  have hbelow (d : ChartEntry) (hd : s.entryOf? e.nt = some d) : d.inside < e.inside :=
    h.above e.nt d e.inside hd hnumber hranked
  rw [Scratch.set_eq]
  split_ifs with habsent
  · -- nothing is entered, and nothing has been, for it would be below what is absent
    refine ⟨h.finite, fun nt d y hd hy hlt' => ?_, h.improves, h.hangs, h.chosen, h.grounded⟩
    rw [hqueued] at hlt'
    split_ifs at hlt' with heq
    · subst heq
      exact absurd habsent (Score.ne_absent_of_lt (hbelow d hd))
    · exact h.above nt d y hd hy hlt'
  · have hentry := hb.scratch.entryOf?_write hlt habsent
    refine ⟨fun nt d hd => ?_, fun nt d y hd hy hlt' => ?_, fun nt d hd => ?_,
      fun nt d hd => ?_, h.chosen, h.grounded⟩
    · rw [hentry] at hd
      split_ifs at hd
      · cases hd
        exact hfinite.resolve_left habsent
      · exact h.finite nt d hd
    · rw [hqueued] at hlt'
      rw [hentry] at hd
      split_ifs at hlt' hd with heq
      · subst heq
        cases hd
        exact hmerit.lt hnumber hy hlt'
      · exact h.above nt d y hd hy hlt'
    · obtain ⟨d', hd', himproves⟩ := h.improves nt d hd
      rw [hentry]
      split_ifs with heq
      · subst heq
        refine ⟨e, rfl, Or.inr ?_⟩
        rcases himproves with rfl | hlt'
        · exact hbelow _ hd'
        · exact Score.lt_trans hlt' (hbelow d' hd')
      · exact ⟨d', hd', himproves⟩
    · rw [hentry] at hd
      split_ifs at hd
      · cases hd
        exact hhangs
      · exact h.hangs nt d hd

theorem Anchored.finite_chosen (h : Anchored merit span derived b s) {nt : UInt16}
    {d : ChartEntry} (hd : b.chosen.entryOf? nt = some d) : Score.IsFinite d.inside := by
  obtain ⟨e, he, himproves⟩ := h.improves nt d hd
  rcases himproves with rfl | hlt
  · exact h.finite nt _ he
  · have hpresent := Score.absent_lt_iff.2
      ⟨(Score.lt_iff.1 hlt).1, Scratch.present_of_entryOf? hd⟩
    exact Score.finite_of_le hpresent (Score.le_of_lt hlt) (h.finite nt e he)

theorem Anchored.offer (hmerit : merit.Monotone) (h : Anchored merit span derived b s)
    (hb : b.Busy count s) {child : ChartEntry} (hchild : b.chosen.entryOf? child.nt = some child)
    {edge : UInt16 × Score} (hlt : edge.1.toNat < count) (hrule : edge.2 ≤ 0) :
    Anchored merit span derived (BeamSelector.offer merit span child (b, s) edge).1
      (BeamSelector.offer merit span child (b, s) edge).2 := by
  unfold BeamSelector.offer
  dsimp only
  split_ifs with hranked
  · obtain ⟨hfinite, hle⟩ := Score.le_zero_add hrule (Or.inr (h.finite_chosen hchild))
    split
    · exact (h.enter (e := ⟨edge.1, edge.2 + child.inside, .unary child.nt, span.stop⟩)
        hmerit hb hlt hranked.1 hfinite (Or.inr ⟨child.nt, child, rfl, hchild, hle⟩)).queue _
    · exact h.queue _
  · exact h

theorem Anchored.foldl_offer (hmerit : merit.Monotone) {child : ChartEntry}
    {edges : List (UInt16 × Score)} (hedges : ∀ edge ∈ edges, edge.1.toNat < count)
    (hrules : ∀ edge ∈ edges, edge.2 ≤ 0) {state : BeamSelector × Scratch}
    (h : Anchored merit span derived state.1 state.2) (hb : state.1.Busy count state.2)
    (hchild : state.1.chosen.entryOf? child.nt = some child) :
    Anchored merit span derived (edges.foldl (BeamSelector.offer merit span child) state).1
      (edges.foldl (BeamSelector.offer merit span child) state).2 := by
  induction edges generalizing state with
  | nil => exact h
  | cons edge edges ih =>
    have hlt := hedges edge List.mem_cons_self
    exact ih (fun e he => hedges e (List.mem_cons_of_mem _ he))
      (fun e he => hrules e (List.mem_cons_of_mem _ he))
      (h.offer hmerit hb hchild hlt (hrules edge List.mem_cons_self))
      (busy_offer hb merit span child hlt) (by rw [chosen_offer]; exact hchild)

/-! ## Choosing -/

variable {g : Grammar}

theorem Anchored.weigh (hg : g.Coherent) (hlowering : g.Lowering) (hmerit : merit.Monotone)
    (places : Nat) (taken : UInt16 × Score) (h : Anchored merit span derived b s)
    (hb : b.Busy g.size s) :
    Anchored merit span derived (BeamSelector.weigh g merit span places taken (b, s)).2.1
      (BeamSelector.weigh g merit span places taken (b, s)).2.2 := by
  obtain ⟨nt, rank⟩ := taken
  unfold BeamSelector.weigh
  dsimp only
  cases he : s.entryOf? nt with
  | none => exact h
  | some e =>
    obtain rfl := Scratch.nt_of_entryOf? he
    have hlt : e.nt.toNat < g.size := hb.scratch.lt ((hb.scratch.mem_iff e.nt).2 ⟨e, he⟩)
    have hne := Scratch.present_of_entryOf? he
    have haccept := h.accept hb he rank
    dsimp only
    split_ifs
    · exact haccept
    · exact h
    · refine Anchored.foldl_offer hmerit (edges_lt hg e.nt)
        (fun edge hedge => hlowering _ _ _ (hg.unary.1 hedge)) haccept
        (busy_accept hb hlt hne rank) ?_
      dsimp only
      rw [entryOf?_accept hb hlt hne, if_pos rfl]

theorem Anchored.choose (hg : g.Coherent) (hlowering : g.Lowering) (hmerit : merit.Monotone)
    (steps places : Nat) (h : Anchored merit span derived b s) (hb : b.Busy g.size s) :
    Anchored merit span derived (BeamSelector.choose g merit span steps places (b, s)).1
      (BeamSelector.choose g merit span steps places (b, s)).2 := by
  induction steps generalizing places b s with
  | zero =>
    simp only [BeamSelector.choose]
    exact h
  | succ steps ih =>
    cases places with
    | zero =>
      simp only [BeamSelector.choose]
      exact h
    | succ places =>
      rw [choose_succ]
      cases b.queue.pop? with
      | none => exact h
      | some popped =>
        obtain ⟨taken, queue⟩ := popped
        exact ih _ ((h.queue queue).weigh hg hlowering hmerit places taken (busy_queue hb queue))
          (weigh_keeps hg merit span places taken (busy_queue hb queue)).1

/-! ## Filling a cell -/

theorem queuedAt_foldl_enqueue (rank : UInt16 → Score → Score) {nts : List UInt16}
    (hnts : ∀ nt ∈ nts, nt.toNat < count) (hb : b.queued.size = count) (nt : UInt16) :
    (nts.foldl (enqueue rank s) b).queuedAt nt =
      if nt ∈ nts then rank nt (s.insideOf nt) else b.queuedAt nt := by
  induction nts generalizing b with
  | nil => rw [if_neg List.not_mem_nil]; rfl
  | cons m nts ih =>
    have hstep : (enqueue rank s b m).queuedAt nt =
        if nt = m then rank m (s.insideOf m) else b.queuedAt nt :=
      queuedAt_set hb (hnts m List.mem_cons_self) _ nt
    have hsize : (enqueue rank s b m).queued.size = count := by
      unfold enqueue
      dsimp only
      rw [Array.size_setIfInBounds, hb]
    rw [List.foldl_cons, ih (fun m' hm' => hnts m' (List.mem_cons_of_mem _ hm')) hsize, hstep]
    by_cases hmem : nt ∈ nts
    · rw [if_pos hmem, if_pos (List.mem_cons_of_mem _ hmem)]
    · by_cases heq : nt = m
      · rw [if_neg hmem, if_pos heq, if_pos (heq ▸ List.mem_cons_self), heq]
      · rw [if_neg hmem, if_neg heq, if_neg fun h => (List.mem_cons.1 h).elim heq hmem]

/-- Before anything is let in, all entries of the table are derived and have their merit. -/
theorem anchored_prepare (hmerit : merit.Monotone) (width held : Nat) (hs : s.Valid count)
    (hb : b.Idle count) (hfinite : ∀ nt e, s.entryOf? nt = some e → Score.IsFinite e.inside)
    (hderived : ∀ nt e, s.entryOf? nt = some e →
      derived.entryOf? nt = some e ∧ ∀ child, e.children ≠ .unary child) :
    Anchored merit span derived (prepare merit span width held s b) s := by
  have hnone (nt : UInt16) : (prepare merit span width held s b).chosen.entryOf? nt = none := by
    rw [chosen_prepare, hb.chosen.entryOf?_of_empty hb.empty]
  have hqueued {nt : UInt16} (hnt : nt ∈ s.populated.toList) :
      (prepare merit span width held s b).queuedAt nt =
        merit.score span.start span.stop nt (s.insideOf nt) := by
    have hrank : (fun nt inside => if span.width = 1 then
        merit.lexicalScore span.start span.stop nt inside
        else merit.score span.start span.stop nt inside) =
        merit.score span.start span.stop := by
      funext nt inside
      rw [hmerit.lexicalScore, ite_self]
    have hfold (queue : BeamQueue) := queuedAt_foldl_enqueue (s := s)
      (merit.score span.start span.stop) (fun nt hnt => hs.lt hnt)
      (b := { b with queue }) hb.queued_size nt
    unfold prepare
    dsimp only
    rw [hrank]
    split_ifs
    · exact (hfold _).trans (if_pos hnt)
    · exact (hfold _).trans (if_pos hnt)
  refine ⟨hfinite, fun nt e y he hy hlt => ?_, fun nt d hd => ?_, fun nt e he => ?_,
    fun nt d hd => ?_, fun nt d hd => ?_⟩
  · rw [hqueued ((hs.mem_iff nt).2 ⟨e, he⟩), ← Scratch.inside_of_entryOf? he] at hlt
    exact hmerit.lt (Score.isNaN_of_present (hfinite nt e he).present) hy hlt
  · rw [hnone] at hd
    cases hd
  · obtain rfl := Scratch.nt_of_entryOf? he
    exact Or.inl (hderived e.nt e he)
  · rw [hnone] at hd
    cases hd
  · rw [hnone] at hd
    cases hd

/-- The entries of a limited cell are grounded, and none is above all that was derived. -/
theorem select_grounded (hg : g.Coherent) (hlowering : g.Lowering) (hmerit : merit.Monotone)
    (width held : Nat) (cell : Cell) (hs : s.Valid g.size) (hb : b.Idle g.size)
    (hplain : ∀ nt e, s.entryOf? nt = some e → ∀ child, e.children ≠ .unary child)
    (hfinite : ∀ nt e, s.entryOf? nt = some e → Score.IsFinite e.inside)
    {nt : UInt16} {e : ChartEntry}
    (he : (b.select g merit span width held s cell).1.get? nt = some e) :
    Grounded (b.select g merit span width held s cell).1.get? nt ∧
      ∃ m d, s.entryOf? m = some d ∧ e.inside ≤ d.inside := by
  have hanchored : Anchored merit span s (prepare merit span width held s.sort b) s.sort :=
    anchored_prepare hmerit width held hs.sort hb hfinite fun nt e he => ⟨he, hplain nt e he⟩
  have hprepared := (prepare_keeps merit span width held hs.sort hb).1
  have hchosen := hanchored.choose hg hlowering hmerit
    (prepare merit span width held s.sort b).queue.capacity width hprepared
  have hbusy := (choose_keeps hg merit span
    (prepare merit span width held s.sort b).queue.capacity width hprepared).1
  rw [select_eq] at he ⊢
  dsimp only at he ⊢
  generalize BeamSelector.choose g merit span _ width
    (prepare merit span width held s.sort b, s.sort) = state at hchosen hbusy he ⊢
  have hget : (state.1.chosen.finalizeInto cell).1.get? = state.1.chosen.entryOf? :=
    funext (hbusy.chosen.get?_finalizeInto cell)
  rw [hget] at he ⊢
  obtain ⟨steps, hsteps⟩ := hchosen.grounded nt e he
  obtain ⟨m, d, hd, hplain', hle⟩ := hsteps.exists_plain hchosen.ascending he
    (Score.isNaN_of_present (hchosen.finite_chosen he).present)
  rcases hchosen.chosen m d hd with ⟨hderived, -⟩ | ⟨child, -, hchild, -⟩
  · exact ⟨⟨steps, hsteps⟩, d.nt, d, hderived, hle⟩
  · exact absurd hchild (hplain' child)

end BeamSelector
end ChartParsing
