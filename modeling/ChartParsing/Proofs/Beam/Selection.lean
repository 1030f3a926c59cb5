import ChartParsing.Beam.Selection
import ChartParsing.Proofs.Beam.Queue
import ChartParsing.Proofs.Chart.Scratch
import ChartParsing.Proofs.Grammar.Coherent

/-!
# Selections that agree

The tables of a selection are kept from cell to cell. A selection that finds them without
merits gives the same cell whatever else was left in them. It forgets every merit with
which an entry was let in, and also those with which entries were queued, unless an edge
with the score of what is absent was ranked above it.
-/

namespace ChartParsing

/-- What is absent is not ranked above itself. -/
def Merit.Grounded (merit : Merit) : Prop :=
  ∀ start stop nt, ¬Score.absent < merit.score start stop nt Score.absent

/-- A parent over a span is not ranked above what is absent if its edge has that score. -/
def Merit.GroundedAt (merit : Merit) (span : Span) (nt : UInt16) : Prop :=
  ¬Score.absent < merit.score span.start span.stop nt Score.absent

theorem Merit.grounded_inside : Merit.inside.Grounded := fun _ _ _ => Score.lt_irrefl _

namespace BeamSelector

/-- Between cells the tables of a selector have their size, and nothing is let in. -/
structure Idle (count : Nat) (b : BeamSelector) : Prop where
  queued_size : b.queued.size = count
  admitted_size : b.admitted.size = count
  chosen : b.chosen.Valid count
  empty : b.chosen.populated = #[]
  admitted : ∀ nt, b.admittedAt nt = Score.absent

/-- No merit is left with which an entry was queued. -/
def Fresh (b : BeamSelector) : Prop := ∀ nt, b.queuedAt nt = Score.absent

theorem getD_replicate (count : Nat) (nt : UInt16) :
    (Array.replicate count Score.absent).getD nt.toNat Score.absent = Score.absent := by
  rw [Array.getD_eq_getD_getElem?, Array.getElem?_replicate]
  split_ifs <;> rfl

theorem idle_new (count : Nat) : (new count).Idle count :=
  ⟨Array.size_replicate, Array.size_replicate, Scratch.valid_new count, rfl, getD_replicate count⟩

theorem fresh_new (count : Nat) : (new count).Fresh := getD_replicate count

/-- While a cell is filled, the entries let in are listed. -/
structure Busy (count : Nat) (b : BeamSelector) (s : Scratch) : Prop where
  queued_size : b.queued.size = count
  admitted_size : b.admitted.size = count
  chosen : b.chosen.Valid count
  scratch : s.Valid count
  listed : ∀ nt, b.admittedAt nt ≠ Score.absent → nt ∈ b.chosen.populated.toList

/-- Every non-terminal with a merit is listed in the scratch table. -/
def Listed (b : BeamSelector) (s : Scratch) : Prop :=
  ∀ nt, b.queuedAt nt ≠ Score.absent → nt ∈ s.populated.toList

/-- Two selectors have the same queue, merits and entries. -/
structure Agree (b c : BeamSelector) : Prop where
  queue : b.queue.Agree c.queue
  queued : ∀ nt, b.queuedAt nt = c.queuedAt nt
  admitted : ∀ nt, b.admittedAt nt = c.admittedAt nt
  chosen : b.chosen.Agree c.chosen

variable {count : Nat} {b c : BeamSelector} {s t : Scratch}

theorem mem_set {e : ChartEntry} (hs : s.Valid count) (hlt : e.nt.toNat < count)
    {nt : UInt16} (h : nt ∈ s.populated.toList) : nt ∈ (s.set e).populated.toList := by
  rw [Scratch.set_eq]
  split_ifs with habsent
  · exact h
  · rw [hs.mem_iff] at h
    rw [(hs.write hlt habsent).mem_iff]
    obtain ⟨d, hd⟩ := h
    rw [hs.entryOf?_write hlt habsent]
    split_ifs
    · exact ⟨e, rfl⟩
    · exact ⟨d, hd⟩

theorem mem_set_self {e : ChartEntry} (hs : s.Valid count) (hlt : e.nt.toNat < count)
    (hne : e.inside ≠ Score.absent) : e.nt ∈ (s.set e).populated.toList := by
  rw [Scratch.set_eq, if_neg hne, (hs.write hlt hne).mem_iff, hs.entryOf?_write hlt hne, if_pos rfl]
  exact ⟨e, rfl⟩

/-! ## Queueing the entries of the table -/

theorem busy_enqueue (h : b.Busy count s) (rank : UInt16 → Score → Score) (nt : UInt16) :
    (enqueue rank s b nt).Busy count s := by
  refine ⟨?_, h.admitted_size, h.chosen, h.scratch, h.listed⟩
  unfold enqueue
  dsimp only
  rw [Array.size_setIfInBounds, h.queued_size]

theorem queuedAt_set (h : b.queued.size = count) {nt : UInt16} (hlt : nt.toNat < count)
    (merit : Score) (m : UInt16) :
    (b.queued.setIfInBounds nt.toNat merit).getD m.toNat Score.absent =
      if m = nt then merit else b.queuedAt m :=
  Scratch.getD_set _ (by rw [h]; exact hlt) merit Score.absent m

theorem Agree.enqueue (h : Agree b c) (hb : b.queued.size = count) (hc : c.queued.size = count)
    (hst : s.Agree t) (rank : UInt16 → Score → Score) {nt : UInt16} (hlt : nt.toNat < count) :
    Agree (enqueue rank s b nt) (enqueue rank t c nt) := by
  unfold BeamSelector.enqueue
  rw [hst.insideOf]
  refine ⟨(h.queue.insert nt _).2, fun m => ?_, h.admitted, h.chosen⟩
  unfold queuedAt
  dsimp only
  rw [queuedAt_set hb hlt, queuedAt_set hc hlt, h.queued]

theorem Listed.enqueue (h : b.Listed s) (hb : b.queued.size = count) (hs : s.Valid count)
    (rank : UInt16 → Score → Score) {nt : UInt16} (hnt : nt ∈ s.populated.toList) :
    (enqueue rank s b nt).Listed s := by
  intro m hm
  unfold BeamSelector.enqueue queuedAt at hm
  dsimp only at hm
  rw [queuedAt_set hb (hs.lt hnt)] at hm
  split_ifs at hm with heq
  · rw [heq]
    exact hnt
  · exact h m hm

/-- Queueing entries of a table keeps what holds of one selector and of two. -/
theorem foldl_enqueue (rank : UInt16 → Score → Score) {nts : List UInt16}
    (hnts : ∀ nt ∈ nts, nt ∈ s.populated.toList) (hb : b.Busy count s) :
    (nts.foldl (enqueue rank s) b).Busy count s ∧
      (b.Listed s → (nts.foldl (enqueue rank s) b).Listed s) ∧
      ∀ {c t}, c.Busy count t → s.Agree t → Agree b c →
        Agree (nts.foldl (enqueue rank s) b) (nts.foldl (enqueue rank t) c) := by
  induction nts generalizing b with
  | nil => exact ⟨hb, fun h => h, fun _ _ h => h⟩
  | cons nt nts ih =>
    have hnt := hnts nt List.mem_cons_self
    obtain ⟨hbusy, hlisted, hagree⟩ := ih (fun m hm => hnts m (List.mem_cons_of_mem _ hm))
      (busy_enqueue hb rank nt)
    refine ⟨hbusy, fun h => hlisted (h.enqueue hb.queued_size hb.scratch rank hnt), ?_⟩
    intro c t hc hst h
    exact hagree (busy_enqueue hc rank nt) hst
      (h.enqueue hb.queued_size hc.queued_size hst rank (hb.scratch.lt hnt))

/-! ## Letting an entry in -/

theorem busy_accept (h : b.Busy count s) {e : ChartEntry} (hlt : e.nt.toNat < count)
    (hne : e.inside ≠ Score.absent) (merit : Score) : (b.accept e merit).Busy count s := by
  refine ⟨h.queued_size, ?_, h.chosen.set hlt, h.scratch, fun nt hnt => ?_⟩
  · unfold accept
    dsimp only
    rw [Array.size_setIfInBounds, h.admitted_size]
  · unfold accept admittedAt at hnt
    dsimp only at hnt
    rw [Scratch.getD_set _ (by rw [h.admitted_size]; exact hlt)] at hnt
    unfold accept
    dsimp only
    split_ifs at hnt with heq
    · rw [heq]
      exact mem_set_self h.chosen hlt hne
    · exact mem_set h.chosen hlt (h.listed nt hnt)

theorem Agree.accept (h : Agree b c) (hb : b.Busy count s) (hc : c.Busy count t)
    {e : ChartEntry} (hlt : e.nt.toNat < count) (merit : Score) :
    Agree (b.accept e merit) (c.accept e merit) := by
  refine ⟨h.queue, h.queued, fun nt => ?_, h.chosen.set hb.chosen hc.chosen hlt⟩
  unfold BeamSelector.accept admittedAt
  dsimp only
  rw [Scratch.getD_set _ (by rw [hb.admitted_size]; exact hlt),
    Scratch.getD_set _ (by rw [hc.admitted_size]; exact hlt)]
  split_ifs
  · rfl
  · exact h.admitted nt

/-! ## Offering a unary parent -/

theorem busy_offer (h : b.Busy count s) (merit : Merit) (span : Span) (child : ChartEntry)
    {edge : UInt16 × Score} (hlt : edge.1.toNat < count) :
    (offer merit span child (b, s) edge).1.Busy count (offer merit span child (b, s) edge).2 := by
  unfold offer
  dsimp only
  split_ifs
  · split
    · refine ⟨?_, h.admitted_size, h.chosen, h.scratch.set hlt, h.listed⟩
      dsimp only
      rw [Array.size_setIfInBounds, h.queued_size]
    · exact ⟨h.queued_size, h.admitted_size, h.chosen, h.scratch, h.listed⟩
  · exact h

/-- Parents that are offered compete for places; nothing is let in. -/
theorem chosen_offer (merit : Merit) (span : Span) (child : ChartEntry)
    (state : BeamSelector × Scratch) (edge : UInt16 × Score) :
    (offer merit span child state edge).1.chosen = state.1.chosen := by
  unfold offer
  dsimp only
  split_ifs
  · split <;> rfl
  · rfl

theorem chosen_foldl_offer (merit : Merit) (span : Span) (child : ChartEntry)
    (edges : List (UInt16 × Score)) (state : BeamSelector × Scratch) :
    (edges.foldl (offer merit span child) state).1.chosen = state.1.chosen := by
  induction edges generalizing state with
  | nil => rfl
  | cons edge edges ih => rw [List.foldl_cons, ih, chosen_offer]

/-- A parent that is queued also has a place in the table, unless its edge has the score of
what is absent and is ranked above it. -/
theorem Listed.offer (h : b.Listed s) (hb : b.Busy count s) {merit : Merit} {span : Span}
    {child : ChartEntry} {edge : UInt16 × Score} (hlt : edge.1.toNat < count)
    (hmerit : edge.2 + child.inside = Score.absent → merit.GroundedAt span edge.1) :
    (offer merit span child (b, s) edge).1.Listed (offer merit span child (b, s) edge).2 := by
  unfold BeamSelector.offer
  dsimp only
  split_ifs with habove
  · split
    · intro nt hnt
      unfold queuedAt at hnt
      dsimp only at hnt ⊢
      rw [queuedAt_set hb.queued_size hlt] at hnt
      split_ifs at hnt with heq
      · rw [heq]
        refine mem_set_self hb.scratch hlt fun habsent => ?_
        dsimp only at habsent
        rw [habsent] at habove
        exact hmerit habsent (Score.present_of_lt habove.1)
      · exact mem_set hb.scratch hlt (h nt hnt)
    · exact h
  · exact h

theorem Agree.offer (h : Agree b c) (hst : s.Agree t) (hb : b.Busy count s)
    (hc : c.Busy count t) (merit : Merit) (span : Span) (child : ChartEntry)
    {edge : UInt16 × Score} (hlt : edge.1.toNat < count) :
    Agree (offer merit span child (b, s) edge).1 (offer merit span child (c, t) edge).1 ∧
      (offer merit span child (b, s) edge).2.Agree (offer merit span child (c, t) edge).2 := by
  obtain ⟨parent, rule⟩ := edge
  unfold BeamSelector.offer
  dsimp only
  rw [h.queued, h.admitted]
  split_ifs with habove
  · obtain ⟨hchanged, hqueue⟩ := h.queue.replace parent
      (merit.score span.start span.stop parent (rule + child.inside))
    generalize b.queue.replace parent
      (merit.score span.start span.stop parent (rule + child.inside)) = x at hchanged hqueue ⊢
    generalize c.queue.replace parent
      (merit.score span.start span.stop parent (rule + child.inside)) = y at hchanged hqueue ⊢
    obtain ⟨changed, queue⟩ := x
    obtain ⟨changed', queue'⟩ := y
    obtain rfl : changed = changed' := hchanged
    cases changed with
    | true =>
      refine ⟨⟨hqueue, fun nt => ?_, h.admitted, h.chosen⟩, hst.set hb.scratch hc.scratch hlt⟩
      unfold queuedAt
      dsimp only
      rw [queuedAt_set hb.queued_size hlt, queuedAt_set hc.queued_size hlt, h.queued]
    | false => exact ⟨⟨hqueue, h.queued, h.admitted, h.chosen⟩, hst⟩
  · exact ⟨h, hst⟩

/-- Offering parents keeps what holds of one selector and of two. -/
theorem foldl_offer (merit : Merit) (span : Span) (child : ChartEntry)
    {edges : List (UInt16 × Score)} (hedges : ∀ edge ∈ edges, edge.1.toNat < count)
    (state : BeamSelector × Scratch) (hb : state.1.Busy count state.2) :
    (edges.foldl (offer merit span child) state).1.Busy count
        (edges.foldl (offer merit span child) state).2 ∧
      ((∀ edge ∈ edges, edge.2 + child.inside = Score.absent → merit.GroundedAt span edge.1) →
        state.1.Listed state.2 →
        (edges.foldl (offer merit span child) state).1.Listed
          (edges.foldl (offer merit span child) state).2) ∧
      ∀ {other : BeamSelector × Scratch}, other.1.Busy count other.2 →
        Agree state.1 other.1 → state.2.Agree other.2 →
          Agree (edges.foldl (offer merit span child) state).1
              (edges.foldl (offer merit span child) other).1 ∧
            (edges.foldl (offer merit span child) state).2.Agree
              (edges.foldl (offer merit span child) other).2 := by
  induction edges generalizing state with
  | nil => exact ⟨hb, fun _ h => h, fun _ h hst => ⟨h, hst⟩⟩
  | cons edge edges ih =>
    have hlt := hedges edge List.mem_cons_self
    obtain ⟨hbusy, hlisted, hagree⟩ := ih (fun e he => hedges e (List.mem_cons_of_mem _ he))
      _ (busy_offer hb merit span child hlt)
    refine ⟨hbusy, fun hmerit h => hlisted (fun e he => hmerit e (List.mem_cons_of_mem _ he))
      (h.offer hb hlt (hmerit edge List.mem_cons_self)), ?_⟩
    intro other hother h hst
    obtain ⟨hstep, hstep'⟩ := h.offer hst hb hother merit span child hlt
    exact hagree (busy_offer hother merit span child hlt) hstep hstep'

/-! ## Choosing -/

theorem edges_lt {g : Grammar} (hg : g.Coherent) (child : UInt16) :
    ∀ edge ∈ g.unaryByChild.column child.toUInt32, edge.1.toNat < g.size :=
  fun _ hedge => hg.unary_lt (hg.unary.1 hedge)

theorem busy_queue (h : b.Busy count s) (queue : BeamQueue) : { b with queue }.Busy count s :=
  ⟨h.queued_size, h.admitted_size, h.chosen, h.scratch, h.listed⟩

/-- What becomes of an entry taken out of the queue, and how many places are left. -/
def weigh (g : Grammar) (merit : Merit) (span : Span) (places : Nat) (taken : UInt16 × Score)
    (state : BeamSelector × Scratch) : Nat × BeamSelector × Scratch :=
  match state.2.entryOf? taken.1 with
  | none => (places + 1, state)
  | some entry =>
    if state.1.admittedAt taken.1 != Score.absent then
      (places + 1, if taken.2 > state.1.admittedAt taken.1 then state.1.accept entry taken.2
        else state.1, state.2)
    else
      (places, (g.unaryByChild.column taken.1.toUInt32).foldl (offer merit span entry)
        (state.1.accept entry taken.2, state.2))

theorem choose_succ (g : Grammar) (merit : Merit) (span : Span) (steps places : Nat)
    (b : BeamSelector) (s : Scratch) :
    choose g merit span (steps + 1) (places + 1) (b, s) = match b.queue.pop? with
      | none => (b, s)
      | some (taken, queue) =>
        choose g merit span steps (weigh g merit span places taken ({ b with queue }, s)).1
          (weigh g merit span places taken ({ b with queue }, s)).2 := by
  rw [choose]
  cases b.queue.pop? with
  | none => rfl
  | some popped =>
    obtain ⟨⟨nt, rank⟩, queue⟩ := popped
    unfold weigh
    dsimp only
    cases s.entryOf? nt with
    | none => rfl
    | some entry =>
      dsimp only
      split_ifs <;> rfl

/-- Admitting an entry keeps what holds of one selector and of two. -/
theorem weigh_keeps {g : Grammar} (hg : g.Coherent) (merit : Merit) (span : Span) (places : Nat)
    (taken : UInt16 × Score) (hb : b.Busy g.size s) :
    (weigh g merit span places taken (b, s)).2.1.Busy g.size
        (weigh g merit span places taken (b, s)).2.2 ∧
      (merit.Grounded → b.Listed s →
        (weigh g merit span places taken (b, s)).2.1.Listed
          (weigh g merit span places taken (b, s)).2.2) ∧
      ∀ {c t}, c.Busy g.size t → Agree b c → s.Agree t →
        (weigh g merit span places taken (b, s)).1 = (weigh g merit span places taken (c, t)).1 ∧
          Agree (weigh g merit span places taken (b, s)).2.1
            (weigh g merit span places taken (c, t)).2.1 ∧
          (weigh g merit span places taken (b, s)).2.2.Agree
            (weigh g merit span places taken (c, t)).2.2 := by
  obtain ⟨nt, rank⟩ := taken
  unfold weigh
  dsimp only
  cases he : s.entryOf? nt with
  | none =>
    refine ⟨hb, fun _ h => h, fun {c t} hc h hst => ?_⟩
    rw [← hst.entry, he]
    exact ⟨rfl, h, hst⟩
  | some e =>
    have hnt := Scratch.nt_of_entryOf? he
    have hlt : e.nt.toNat < g.size := by
      rw [hnt]
      exact hb.scratch.lt ((hb.scratch.mem_iff nt).2 ⟨e, he⟩)
    have hne := Scratch.present_of_entryOf? he
    have hbusy := busy_accept hb hlt hne rank
    dsimp only
    by_cases hadmitted : (b.admittedAt nt != Score.absent) = true
    · rw [if_pos hadmitted]
      refine ⟨?_, fun _ h => ?_, fun {c t} hc h hst => ?_⟩
      · dsimp only
        split_ifs
        · exact hbusy
        · exact hb
      · dsimp only
        split_ifs
        · exact h
        · exact h
      · rw [← hst.entry, he]
        dsimp only
        rw [← h.admitted, if_pos hadmitted]
        refine ⟨rfl, ?_, hst⟩
        dsimp only
        split_ifs
        · exact h.accept hb hc hlt rank
        · exact h
    · rw [if_neg hadmitted]
      obtain ⟨hoffered, hlisted, hagree⟩ := foldl_offer merit span e (edges_lt hg nt)
        (b.accept e rank, s) hbusy
      refine ⟨hoffered, fun hmerit h => hlisted (fun _ _ _ => hmerit _ _ _) h,
        fun {c t} hc h hst => ?_⟩
      rw [← hst.entry, he]
      dsimp only
      rw [← h.admitted, if_neg hadmitted]
      exact ⟨rfl, hagree (busy_accept hc hlt hne rank) (h.accept hb hc hlt rank) hst⟩

/-- Taking entries out of the queue keeps what holds of one selector and of two. -/
theorem choose_keeps {g : Grammar} (hg : g.Coherent) (merit : Merit) (span : Span)
    (steps places : Nat) (hb : b.Busy g.size s) :
    (choose g merit span steps places (b, s)).1.Busy g.size
        (choose g merit span steps places (b, s)).2 ∧
      (merit.Grounded → b.Listed s →
        (choose g merit span steps places (b, s)).1.Listed
          (choose g merit span steps places (b, s)).2) ∧
      ∀ {c t}, c.Busy g.size t → Agree b c → s.Agree t →
        Agree (choose g merit span steps places (b, s)).1
            (choose g merit span steps places (c, t)).1 ∧
          (choose g merit span steps places (b, s)).2.Agree
            (choose g merit span steps places (c, t)).2 := by
  induction steps generalizing places b s with
  | zero =>
    simp only [choose]
    exact ⟨hb, fun _ h => h, fun _ h hst => ⟨h, hst⟩⟩
  | succ steps ih =>
    cases places with
    | zero =>
      simp only [choose]
      exact ⟨hb, fun _ h => h, fun _ h hst => ⟨h, hst⟩⟩
    | succ places =>
      rw [choose_succ]
      cases hpop : b.queue.pop? with
      | none =>
        refine ⟨hb, fun _ h => h, fun {c t} hc h hst => ?_⟩
        rcases h.queue.pop? with ⟨-, hpop'⟩ | ⟨taken, queue, queue', hpop', -⟩
        · rw [choose_succ, hpop']
          exact ⟨h, hst⟩
        · rw [hpop] at hpop'
          cases hpop'
      | some popped =>
        obtain ⟨taken, queue⟩ := popped
        obtain ⟨hweigh, hlisted, hagree⟩ :=
          weigh_keeps hg merit span places taken (busy_queue hb queue)
        dsimp only
        obtain ⟨hbusy, hlisted', hagree'⟩ := ih (weigh g merit span places taken
          ({ b with queue }, s)).1 hweigh
        refine ⟨hbusy, fun hmerit h => hlisted' hmerit (hlisted hmerit h),
          fun {c t} hc h hst => ?_⟩
        rcases h.queue.pop? with ⟨hpop', -⟩ | ⟨taken', queue', queue'', hpop', hpop'', hqueue⟩
        · rw [hpop] at hpop'
          cases hpop'
        · rw [hpop] at hpop'
          cases hpop'
          rw [choose_succ, hpop'']
          dsimp only
          obtain ⟨hplaces, hstep, hstep'⟩ := hagree (busy_queue hc queue'')
            ⟨hqueue, h.queued, h.admitted, h.chosen⟩ hst
          rw [← hplaces]
          exact hagree' (weigh_keeps hg merit span places taken (busy_queue hc queue'')).1
            hstep hstep'

/-! ## Filling a cell -/

/-- The selector with the entries of a sorted table in its queue. -/
def prepare (merit : Merit) (span : Span) (width held : Nat) (s : Scratch)
    (b : BeamSelector) : BeamSelector :=
  let queue := b.queue.clear width
  let queue := if span.width = 1 then queue.setMaxSize (width - held) else queue
  let rank (nt : UInt16) (inside : Score) : Score :=
    if span.width = 1 then merit.lexicalScore span.start span.stop nt inside
    else merit.score span.start span.stop nt inside
  let b := s.populated.toList.foldl (enqueue rank s) { b with queue }
  if span.width = 1 then { b with queue := b.queue.setMaxSize width } else b

theorem chosen_foldl_enqueue (rank : UInt16 → Score → Score) (nts : List UInt16) :
    (nts.foldl (enqueue rank s) b).chosen = b.chosen := by
  induction nts generalizing b with
  | nil => rfl
  | cons nt nts ih => exact ih

/-- Queueing lets nothing in. -/
theorem chosen_prepare (merit : Merit) (span : Span) (width held : Nat) (s : Scratch)
    (b : BeamSelector) : (prepare merit span width held s b).chosen = b.chosen := by
  unfold prepare
  dsimp only
  split_ifs <;> rw [chosen_foldl_enqueue]

theorem prepare_keeps (merit : Merit) (span : Span) (width held : Nat) (hs : s.Valid count)
    (hb : b.Idle count) :
    (prepare merit span width held s b).Busy count s ∧
      (b.Fresh → (prepare merit span width held s b).Listed s) ∧
      ∀ {c t}, c.Idle count → t.Valid count → b.Fresh → c.Fresh → s.Agree t →
        Agree (prepare merit span width held s b) (prepare merit span width held t c) := by
  have hstart {c : BeamSelector} {t : Scratch} (hc : c.Idle count) (ht : t.Valid count)
      (queue : BeamQueue) : { c with queue }.Busy count t :=
    ⟨hc.queued_size, hc.admitted_size, hc.chosen, ht, fun nt hnt => absurd (hc.admitted nt) hnt⟩
  unfold prepare
  dsimp only
  generalize hrank : (fun (nt : UInt16) (inside : Score) =>
    if span.width = 1 then merit.lexicalScore span.start span.stop nt inside
    else merit.score span.start span.stop nt inside) = rank
  generalize hqueue : (if span.width = 1 then (b.queue.clear width).setMaxSize (width - held)
    else b.queue.clear width) = queue
  obtain ⟨hbusy, hlisted, hagree⟩ := foldl_enqueue rank (fun _ hnt => hnt) (hstart hb hs queue)
  refine ⟨?_, fun hfresh => ?_, fun {c t} hc ht hfresh hfresh' hst => ?_⟩
  · split_ifs
    · exact busy_queue hbusy _
    · exact hbusy
  · have hlisted := hlisted fun nt hnt => absurd (hfresh nt) hnt
    split_ifs
    · exact hlisted
    · exact hlisted
  · have hagree := hagree (hstart hc ht (if span.width = 1 then
      (c.queue.clear width).setMaxSize (width - held) else c.queue.clear width)) hst
      ⟨?_, fun nt => (hfresh nt).trans (hfresh' nt).symm,
        fun nt => (hb.admitted nt).trans (hc.admitted nt).symm, ?_⟩
    · rw [← hst.populated]
      split_ifs at hagree ⊢
      · exact ⟨hagree.queue.setMaxSize width, hagree.queued, hagree.admitted, hagree.chosen⟩
      · exact hagree
    · subst hqueue
      dsimp only
      split_ifs
      · exact (BeamQueue.agree_clear _ _ width).setMaxSize _
      · exact BeamQueue.agree_clear _ _ width
    · exact hb.chosen.agree_of_empty hc.chosen hb.empty hc.empty

theorem select_eq (g : Grammar) (merit : Merit) (span : Span) (width held : Nat) (s : Scratch)
    (cell : Cell) (b : BeamSelector) :
    b.select g merit span width held s cell =
      let prepared := prepare merit span width held s.sort b
      let state := choose g merit span prepared.queue.capacity width (prepared, s.sort)
      let filled := state.1.chosen.finalizeInto cell
      (filled.1, state.2, { state.1.forget state.2 with chosen := filled.2.reset }) := by
  unfold select prepare
  dsimp only
  rw [← Array.foldl_toList]
  rfl

/-- Merits are forgotten if they belong to what is listed. -/
theorem Busy.forget (h : b.Busy count s) :
    (b.forget s).queued.size = count ∧ (b.forget s).admitted.size = count ∧
      (∀ nt, (b.forget s).admittedAt nt = Score.absent) ∧
      (b.Listed s → (b.forget s).Fresh) := by
  unfold BeamSelector.forget
  refine ⟨?_, ?_, fun nt => ?_, fun hlisted nt => ?_⟩
  · dsimp only
    rw [← Array.foldl_toList, Scratch.size_foldl_set, h.queued_size]
  · dsimp only
    rw [← Array.foldl_toList, Scratch.size_foldl_set, h.admitted_size]
  · unfold admittedAt
    dsimp only
    rw [← Array.foldl_toList, Scratch.getD_foldl_set]
    split_ifs with hset
    · rfl
    · by_contra hne
      have hmem := h.listed nt hne
      exact hset ⟨hmem, by rw [h.admitted_size]; exact h.chosen.lt hmem⟩
  · unfold queuedAt
    dsimp only
    rw [← Array.foldl_toList, Scratch.getD_foldl_set]
    split_ifs with hset
    · rfl
    · by_contra hne
      have hmem := hlisted nt hne
      exact hset ⟨hmem, by rw [h.queued_size]; exact h.scratch.lt hmem⟩

/-- A selection leaves its tables in order, and forgets all merits if it found none and
what is absent is not ranked above itself. -/
theorem select_keeps {g : Grammar} (hg : g.Coherent) (merit : Merit) (span : Span)
    (width held : Nat) (cell : Cell) (hs : s.Valid g.size) (hb : b.Idle g.size) :
    (b.select g merit span width held s cell).1.Ordered ∧
      (b.select g merit span width held s cell).2.1.Valid g.size ∧
      (b.select g merit span width held s cell).2.2.Idle g.size ∧
      (merit.Grounded → b.Fresh → (b.select g merit span width held s cell).2.2.Fresh) := by
  obtain ⟨hprepared, hlisted, -⟩ := prepare_keeps merit span width held hs.sort hb
  obtain ⟨hbusy, hlisted', -⟩ := choose_keeps hg merit span
    (prepare merit span width held s.sort b).queue.capacity width hprepared
  rw [select_eq]
  dsimp only
  generalize prepare merit span width held s.sort b = prepared at hlisted hbusy hlisted' ⊢
  generalize choose g merit span prepared.queue.capacity width (prepared, s.sort) = state
    at hbusy hlisted' ⊢
  obtain ⟨hqueued, hadmitted, hforgot, hfresh⟩ := hbusy.forget
  refine ⟨hbusy.chosen.ordered_finalizeInto cell, hbusy.scratch, ?_,
    fun hmerit hb' => hfresh (hlisted' hmerit (hlisted hb'))⟩
  exact ⟨hqueued, hadmitted, hbusy.chosen.sort.reset.1, hbusy.chosen.sort.reset.2.1, hforgot⟩

/-- Selections that find no merits give the same cell for tables that agree. -/
theorem select_agree {g : Grammar} (hg : g.Coherent) (merit : Merit) (span : Span)
    (width held : Nat) (cell cell' : Cell) (hs : s.Valid g.size) (ht : t.Valid g.size)
    (hst : s.Agree t) (hb : b.Idle g.size) (hc : c.Idle g.size) (hb' : b.Fresh) (hc' : c.Fresh) :
    (b.select g merit span width held s cell).1 = (c.select g merit span width held t cell').1 := by
  obtain ⟨hprepared, -, hagree⟩ := prepare_keeps merit span width held hs.sort hb
  have hprepared' := (prepare_keeps merit span width held ht.sort hc).1
  have hagree := hagree hc ht.sort hb' hc' hst.sort
  obtain ⟨hbusy, -, hchosen⟩ := choose_keeps hg merit span
    (prepare merit span width held s.sort b).queue.capacity width hprepared
  have hbusy' := (choose_keeps hg merit span
    (prepare merit span width held t.sort c).queue.capacity width hprepared').1
  obtain ⟨hchosen, -⟩ := hchosen hprepared' hagree hst.sort
  rw [select_eq, select_eq]
  dsimp only
  rw [hagree.queue.capacity] at hchosen hbusy ⊢
  generalize choose g merit span _ width (prepare merit span width held s.sort b, s.sort) = state
    at hbusy hchosen ⊢
  generalize choose g merit span _ width (prepare merit span width held t.sort c, t.sort) = state'
    at hbusy' hchosen ⊢
  exact hbusy.chosen.finalizeInto_congr hbusy'.chosen hchosen.chosen.entry cell cell'

end BeamSelector
end ChartParsing
