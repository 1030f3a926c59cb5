import ChartParsing.Proofs.Beam.Monotone

/-!
# Selections are closed and bounded

Whatever a figure of merit ranks above what, and whatever merits a selector was left with, the
entries that are let in have what they point to, and there are no more of them than places.
Entries are evicted from the queue, queued again, written over in the table and exchanged after
they were let in; but nothing that was let in is taken out again, so a unary pointer to it stays
good. A place is given back only where the entry that takes it is there already.
-/

namespace ChartParsing

namespace BeamSelector

/-- An entry that was derived before the selection, or by a unary rule from one let in. -/
def Rests (g : Grammar) (span : Span) (derived chosen : Scratch) (e : ChartEntry) : Prop :=
  derived.entryOf? e.nt = some e ∨
    ∃ child rule d, e.children = .unary child ∧ e.midpoint = span.stop ∧
      g.HasUnary e.nt child rule ∧ chosen.entryOf? child = some d

/-- All entries of the table, and all that were let in, rest on what was let in. -/
structure Backed (g : Grammar) (span : Span) (derived : Scratch) (b : BeamSelector)
    (s : Scratch) : Prop where
  scratch : ∀ nt e, s.entryOf? nt = some e → Rests g span derived b.chosen e
  chosen : ∀ nt e, b.chosen.entryOf? nt = some e → Rests g span derived b.chosen e

/-- The entries that were let in and the places that are left. -/
def Room (width places : Nat) (b : BeamSelector) : Prop := b.chosen.size + places ≤ width

variable {g : Grammar} {merit : Merit} {span : Span} {derived s : Scratch} {b : BeamSelector}
  {count width : Nat}

theorem Rests.mono {chosen chosen' : Scratch} {e : ChartEntry}
    (hkept : ∀ nt d, chosen.entryOf? nt = some d → ∃ d', chosen'.entryOf? nt = some d')
    (h : Rests g span derived chosen e) : Rests g span derived chosen' e := by
  rcases h with h | ⟨child, rule, d, hchild, hmid, hrule, hd⟩
  · exact Or.inl h
  · obtain ⟨d', hd'⟩ := hkept child d hd
    exact Or.inr ⟨child, rule, d', hchild, hmid, hrule, hd'⟩

/-! ## Letting an entry in -/

theorem Backed.accept (h : Backed g span derived b s) (hb : b.Busy count s) {e : ChartEntry}
    (he : s.entryOf? e.nt = some e) (rank : Score) :
    Backed g span derived (b.accept e rank) s := by
  have hlt : e.nt.toNat < count := hb.scratch.lt ((hb.scratch.mem_iff e.nt).2 ⟨e, he⟩)
  have hentry := entryOf?_accept hb hlt (Scratch.present_of_entryOf? he) rank
  have hkept : ∀ nt d, b.chosen.entryOf? nt = some d →
      ∃ d', (b.accept e rank).chosen.entryOf? nt = some d' := by
    intro nt d hd
    rw [hentry]
    split_ifs
    · exact ⟨e, rfl⟩
    · exact ⟨d, hd⟩
  constructor
  · intro nt d hd
    exact (h.scratch nt d hd).mono hkept
  · intro nt d hd
    rw [hentry] at hd
    split_ifs at hd
    · cases hd
      exact (h.scratch e.nt e he).mono hkept
    · exact (h.chosen nt d hd).mono hkept

/-- Letting an entry in takes at most one more place, and none if it was let in before. -/
theorem size_accept (e : ChartEntry) (rank : Score) :
    (b.accept e rank).chosen.size ≤ b.chosen.size + 1 ∧
      (e.nt ∈ b.chosen.populated.toList → b.chosen.Valid count →
        (b.accept e rank).chosen.size = b.chosen.size) := by
  have hlist := Scratch.populated_write b.chosen e
  unfold accept Scratch.size
  dsimp only
  rw [Scratch.set_eq]
  split_ifs with habsent
  · exact ⟨Nat.le_succ _, fun _ _ => rfl⟩
  · rw [← Array.length_toList, ← Array.length_toList, hlist]
    constructor
    · split_ifs <;> simp
    · intro hmem hvalid
      rw [hvalid.mem_iff, ← Option.isSome_iff_exists] at hmem
      rw [if_pos hmem]

/-! ## Offering a unary parent -/

theorem Backed.queue (h : Backed g span derived b s) (queue : BeamQueue) :
    Backed g span derived { b with queue } s := ⟨h.scratch, h.chosen⟩

theorem Backed.offer (h : Backed g span derived b s) (hb : b.Busy count s) {child : ChartEntry}
    (hchild : b.chosen.entryOf? child.nt = some child) {edge : UInt16 × Score}
    (hlt : edge.1.toNat < count) (hrule : g.HasUnary edge.1 child.nt edge.2) :
    Backed g span derived (BeamSelector.offer merit span child (b, s) edge).1
      (BeamSelector.offer merit span child (b, s) edge).2 := by
  unfold BeamSelector.offer
  dsimp only
  split_ifs
  · split
    · refine ⟨fun nt e he => ?_, h.chosen⟩
      dsimp only at he
      rw [Scratch.set_eq] at he
      split_ifs at he with habsent
      · exact h.scratch nt e he
      · rw [hb.scratch.entryOf?_write hlt habsent] at he
        split_ifs at he
        · cases he
          exact Or.inr ⟨child.nt, edge.2, child, rfl, rfl, hrule, hchild⟩
        · exact h.scratch nt e he
    · exact h.queue _
  · exact h

theorem Backed.foldl_offer {child : ChartEntry} {edges : List (UInt16 × Score)}
    (hedges : ∀ edge ∈ edges, edge.1.toNat < count)
    (hrules : ∀ edge ∈ edges, g.HasUnary edge.1 child.nt edge.2)
    {state : BeamSelector × Scratch} (h : Backed g span derived state.1 state.2)
    (hb : state.1.Busy count state.2) (hchild : state.1.chosen.entryOf? child.nt = some child) :
    Backed g span derived (edges.foldl (BeamSelector.offer merit span child) state).1
      (edges.foldl (BeamSelector.offer merit span child) state).2 := by
  induction edges generalizing state with
  | nil => exact h
  | cons edge edges ih =>
    have hlt := hedges edge List.mem_cons_self
    apply ih (fun e he => hedges e (List.mem_cons_of_mem _ he))
      (fun e he => hrules e (List.mem_cons_of_mem _ he))
      (h.offer hb hchild hlt (hrules edge List.mem_cons_self))
      (busy_offer hb merit span child hlt)
    rw [chosen_offer]
    exact hchild

/-! ## Choosing -/

theorem Backed.weigh (hg : g.Coherent) (places : Nat) (taken : UInt16 × Score)
    (h : Backed g span derived b s) (hb : b.Busy g.size s) :
    Backed g span derived (BeamSelector.weigh g merit span places taken (b, s)).2.1
      (BeamSelector.weigh g merit span places taken (b, s)).2.2 := by
  obtain ⟨nt, rank⟩ := taken
  unfold BeamSelector.weigh
  dsimp only
  cases he : s.entryOf? nt with
  | none => exact h
  | some e =>
    obtain rfl := Scratch.nt_of_entryOf? he
    have hlt : e.nt.toNat < g.size := hb.scratch.lt ((hb.scratch.mem_iff e.nt).2 ⟨e, he⟩)
    have hne := Scratch.present_of_entryOf? he
    have haccept := h.accept hb he rank
    dsimp only
    split_ifs
    · exact haccept
    · exact h
    · apply haccept.foldl_offer (edges_lt hg e.nt) (fun edge hedge => hg.unary.1 hedge)
        (busy_accept hb hlt hne rank)
      rw [entryOf?_accept hb hlt hne, if_pos rfl]

theorem Room.weigh (g : Grammar) (merit : Merit) (span : Span) (places : Nat)
    (taken : UInt16 × Score) (h : b.Room width (places + 1)) (hb : b.Busy count s) :
    (BeamSelector.weigh g merit span places taken (b, s)).2.1.Room width
      (BeamSelector.weigh g merit span places taken (b, s)).1 := by
  unfold Room at h ⊢
  obtain ⟨nt, rank⟩ := taken
  unfold BeamSelector.weigh
  dsimp only
  cases he : s.entryOf? nt with
  | none => exact h
  | some e =>
    obtain rfl := Scratch.nt_of_entryOf? he
    obtain ⟨hmore, hsame⟩ := @size_accept b count e rank
    dsimp only
    split_ifs with hadmitted
    · -- the entry was let in before, so its place is given back
      dsimp only
      rw [hsame (hb.listed e.nt (Scratch.bne_absent.1 hadmitted)) hb.chosen]
      exact h
    · exact h
    · rw [chosen_foldl_offer]
      dsimp only
      omega

theorem choose_closed (hg : g.Coherent) (merit : Merit) (steps places : Nat)
    (h : Backed g span derived b s) (hroom : b.Room width places) (hb : b.Busy g.size s) :
    Backed g span derived (choose g merit span steps places (b, s)).1
        (choose g merit span steps places (b, s)).2 ∧
      (choose g merit span steps places (b, s)).1.chosen.size ≤ width := by
  have hdone : b.chosen.size ≤ width := Nat.le_trans (Nat.le_add_right _ _) hroom
  induction steps generalizing places b s with
  | zero =>
    simp only [choose]
    exact ⟨h, hdone⟩
  | succ steps ih =>
    cases places with
    | zero =>
      simp only [choose]
      exact ⟨h, hdone⟩
    | succ places =>
      rw [choose_succ]
      cases b.queue.pop? with
      | none => exact ⟨h, hdone⟩
      | some popped =>
        obtain ⟨taken, queue⟩ := popped
        have hb' := busy_queue hb queue
        have hroom' : ({ b with queue } : BeamSelector).Room width (places + 1) := hroom
        have hnext := hroom'.weigh g merit span places taken hb'
        exact ih _ ((h.queue queue).weigh hg places taken hb') hnext
          (weigh_keeps hg merit span places taken hb').1
          (Nat.le_trans (Nat.le_add_right _ _) hnext)

/-! ## Filling a cell -/

/-- A limited cell holds no more entries than its limit. Each was derived before the selection,
or by a unary rule from an entry of the same cell. -/
theorem select_closed (hg : g.Coherent) (merit : Merit) (span : Span) (width held : Nat)
    (cell : Cell) (hs : s.Valid g.size) (hb : b.Idle g.size) :
    (b.select g merit span width held s cell).1.size ≤ width ∧
      ∀ nt e, (b.select g merit span width held s cell).1.get? nt = some e →
        nt.toNat < g.size ∧ e.inside ≠ Score.absent ∧
          (s.entryOf? nt = some e ∨ ∃ child rule d, e.children = .unary child ∧
            e.midpoint = span.stop ∧ g.HasUnary nt child rule ∧
            (b.select g merit span width held s cell).1.get? child = some d) := by
  have hnone (nt : UInt16) : (prepare merit span width held s.sort b).chosen.entryOf? nt = none := by
    rw [chosen_prepare, hb.chosen.entryOf?_of_empty hb.empty]
  have hbacked : Backed g span s (prepare merit span width held s.sort b) s.sort := by
    constructor
    · intro nt e he
      obtain rfl := Scratch.nt_of_entryOf? he
      exact Or.inl he
    · intro nt e he
      rw [hnone] at he
      cases he
  have hroom : (prepare merit span width held s.sort b).Room width width := by
    unfold Room
    rw [chosen_prepare, Scratch.size, hb.empty]
    simp
  have hprepared := (prepare_keeps merit span width held hs.sort hb).1
  obtain ⟨hclosed, hsize⟩ := choose_closed hg merit
    (prepare merit span width held s.sort b).queue.capacity width hbacked hroom hprepared
  have hbusy := (choose_keeps hg merit span
    (prepare merit span width held s.sort b).queue.capacity width hprepared).1
  rw [select_eq]
  dsimp only
  generalize choose g merit span _ width (prepare merit span width held s.sort b, s.sort) = state
    at hclosed hsize hbusy ⊢
  have hget := hbusy.chosen.get?_finalizeInto cell
  refine ⟨by rwa [Scratch.size_finalizeInto], fun nt e he => ?_⟩
  rw [hget] at he
  refine ⟨hbusy.chosen.lt ((hbusy.chosen.mem_iff nt).2 ⟨e, he⟩), Scratch.present_of_entryOf? he, ?_⟩
  simp only [hget]
  obtain rfl := Scratch.nt_of_entryOf? he
  exact hclosed.chosen e.nt e he

end BeamSelector
end ChartParsing
