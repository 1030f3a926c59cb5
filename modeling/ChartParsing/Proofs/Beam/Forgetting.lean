import ChartParsing.Proofs.Beam.Turns
import ChartParsing.Proofs.Grammar.Making

/-!
# Selections leave nothing behind

A selector is kept from cell to cell. Whatever was selected with it, no entry it let in and no
merit with which it let one in is left. A merit with which a parent was queued is left only if
the parent has no entry in the table, and that only happens in a turn that offers it with the
score of what is absent although it is ranked above that. Without such turns a selector does for
each cell what a new one does, to the cell and to the table.
-/

namespace ChartParsing

namespace BeamSelector

variable {g : Grammar} {merit : Merit} {span : Span} {s : Scratch} {b c : BeamSelector}
  {count steps places : Nat}

/-! ## Merits that stay listed -/

theorem Listed.weigh (hg : g.Coherent) {t : Turn} (h : t.selector.Listed t.table)
    (hb : t.selector.Busy g.size t.table) (hproper : t.Proper g merit span) (places : Nat) :
    (weigh g merit span places t.taken (t.selector, t.table)).2.1.Listed
      (weigh g merit span places t.taken (t.selector, t.table)).2.2 := by
  rw [weigh_eq]
  cases hadmits : t.admits? with
  | none =>
    dsimp only
    rcases t.exchange_cases hadmits with heq | ⟨e, -, -, -, heq⟩
    · rwa [heq]
    · rw [heq]
      exact h
  | some e =>
    obtain ⟨-, he⟩ := Turn.admits?_eq_some.1 hadmits
    have hnt := Scratch.nt_of_entryOf? he
    rw [← hnt] at he
    have hlt := hb.scratch.lt ((hb.scratch.mem_iff e.nt).2 ⟨e, he⟩)
    have hbusy := busy_accept hb hlt (Scratch.present_of_entryOf? he) t.taken.2
    refine (foldl_offer merit span e (edges_lt hg t.taken.1)
      (t.selector.accept e t.taken.2, t.table) hbusy).2.1 (fun edge hedge => ?_) h
    rw [← hnt] at hedge
    exact hproper e edge.1 edge.2 hadmits (hg.unary.1 hedge)

theorem Listed.choose (hg : g.Coherent) (h : b.Listed s) (hb : b.Busy g.size s)
    (hproper : ∀ t ∈ turnsFrom g merit span steps places (b, s), t.Proper g merit span) :
    (choose g merit span steps places (b, s)).1.Listed
      (choose g merit span steps places (b, s)).2 := by
  induction steps generalizing places b s with
  | zero =>
    simp only [BeamSelector.choose]
    exact h
  | succ steps ih =>
    cases places with
    | zero =>
      simp only [BeamSelector.choose]
      exact h
    | succ places =>
      cases hpop : b.queue.pop? with
      | none =>
        rw [choose_of_none hpop]
        exact h
      | some popped =>
        obtain ⟨taken, queue⟩ := popped
        rw [turnsFrom_succ hpop] at hproper
        rw [choose_of_some hpop]
        have hb' := busy_queue hb queue
        exact ih (Listed.weigh hg (t := ⟨taken, { b with queue }, s⟩) h hb'
            (hproper _ List.mem_cons_self) places)
          (weigh_keeps hg merit span places taken hb').1
          fun t ht => hproper t (List.mem_cons_of_mem _ ht)

/-! ## The table of a selection -/

theorem offer_table (h : Agree b c) (merit : Merit) (span : Span) (s : Scratch)
    (child : ChartEntry) (edge : UInt16 × Score) :
    (offer merit span child (b, s) edge).2 = (offer merit span child (c, s) edge).2 := by
  rw [offer_eq, offer_eq]
  dsimp only
  rw [h.queued, h.admitted,
    (h.queue.replace edge.1 (merit.grade span (unaryEntry span child edge))).1]
  split_ifs <;> rfl

theorem foldl_offer_table (child : ChartEntry) {edges : List (UInt16 × Score)}
    (hedges : ∀ edge ∈ edges, edge.1.toNat < count) (hb : b.Busy count s)
    (hc : c.Busy count s) (h : Agree b c) :
    (edges.foldl (offer merit span child) (b, s)).2 =
      (edges.foldl (offer merit span child) (c, s)).2 := by
  induction edges generalizing b c s with
  | nil => rfl
  | cons edge edges ih =>
    have hlt := hedges edge List.mem_cons_self
    have htable := offer_table h merit span s child edge
    have hb' := busy_offer hb merit span child hlt
    have hc' := busy_offer hc merit span child hlt
    have hagree := (h.offer ⟨rfl, fun _ => rfl⟩ hb hc merit span child hlt).1
    rw [List.foldl_cons, List.foldl_cons]
    generalize offer merit span child (b, s) edge = state at htable hb' hagree ⊢
    generalize offer merit span child (c, s) edge = state' at htable hc' hagree ⊢
    obtain ⟨b', s'⟩ := state
    obtain ⟨c', t'⟩ := state'
    obtain rfl : s' = t' := htable
    exact ih (fun e he => hedges e (List.mem_cons_of_mem _ he)) hb' hc' hagree

theorem weigh_table (hg : g.Coherent) (merit : Merit) (span : Span) (places : Nat)
    (taken : UInt16 × Score) (hb : b.Busy g.size s) (hc : c.Busy g.size s) (h : Agree b c) :
    (weigh g merit span places taken (b, s)).2.2 =
      (weigh g merit span places taken (c, s)).2.2 := by
  have hadmits : (Turn.mk taken b s).admits? = (Turn.mk taken c s).admits? := by
    unfold Turn.admits?
    dsimp only
    rw [h.admitted]
  rw [weigh_eq ⟨taken, b, s⟩, weigh_eq ⟨taken, c, s⟩, ← hadmits]
  cases hentry : (Turn.mk taken b s).admits? with
  | none => rfl
  | some e =>
    obtain ⟨-, he⟩ := Turn.admits?_eq_some.1 hentry
    dsimp only at he ⊢
    rw [← Scratch.nt_of_entryOf? he] at he
    have hlt := hb.scratch.lt ((hb.scratch.mem_iff e.nt).2 ⟨e, he⟩)
    have hne := Scratch.present_of_entryOf? he
    exact foldl_offer_table e (edges_lt hg taken.1) (busy_accept hb hlt hne taken.2)
      (busy_accept hc hlt hne taken.2) (h.accept hb hc hlt taken.2)

/-- Selectors that agree do the same to a table. -/
theorem choose_table (hg : g.Coherent) (merit : Merit) (span : Span) (steps places : Nat)
    (hb : b.Busy g.size s) (hc : c.Busy g.size s) (h : Agree b c) :
    (choose g merit span steps places (b, s)).2 =
      (choose g merit span steps places (c, s)).2 := by
  induction steps generalizing places b c s with
  | zero => simp only [BeamSelector.choose]
  | succ steps ih =>
    cases places with
    | zero => simp only [BeamSelector.choose]
    | succ places =>
      rcases h.queue.pop? with ⟨hpop, hpop'⟩ | ⟨taken, queue, queue', hpop, hpop', hqueue⟩
      · rw [choose_of_none hpop, choose_of_none hpop']
      · have hb' := busy_queue hb queue
        have hc' := busy_queue hc queue'
        have hagree : Agree { b with queue } { c with queue := queue' } :=
          ⟨hqueue, h.queued, h.admitted, h.chosen⟩
        have htable := weigh_table hg merit span places taken hb' hc' hagree
        obtain ⟨hnext, -, hkeeps⟩ := weigh_keeps hg merit span places taken hb'
        have hnext' := (weigh_keeps hg merit span places taken hc').1
        obtain ⟨hplaces, hagree', -⟩ := hkeeps hc' hagree ⟨rfl, fun _ => rfl⟩
        rw [choose_of_some hpop, choose_of_some hpop']
        generalize BeamSelector.weigh g merit span places taken ({ b with queue }, s) = next
          at htable hnext hplaces hagree' ⊢
        generalize BeamSelector.weigh g merit span places taken ({ c with queue := queue' }, s) =
          next' at htable hnext' hplaces hagree' ⊢
        obtain ⟨left, b', s'⟩ := next
        obtain ⟨left', c', t'⟩ := next'
        obtain rfl : s' = t' := htable
        obtain rfl : left = left' := hplaces
        exact ih left hnext hnext' hagree'

/-! ## Cell after cell -/

/-- What a selector that is kept does to a cell and a table is what a new one does, and it is
as good as new again. -/
theorem select_eq_new (hg : g.Coherent) (merit : Merit) (span : Span) (width held : Nat)
    (cell : Cell) (hs : s.Valid g.size) (hb : b.Idle g.size) (hfresh : b.Fresh)
    (hproper : ∀ t ∈ turns g merit span width held s (new g.size), t.Proper g merit span) :
    (b.select g merit span width held s cell).1 =
        ((new g.size).select g merit span width held s cell).1 ∧
      (b.select g merit span width held s cell).2.1 =
        ((new g.size).select g merit span width held s cell).2.1 ∧
      (b.select g merit span width held s cell).2.2.Idle g.size ∧
      (b.select g merit span width held s cell).2.2.Fresh := by
  have hnew := idle_new g.size
  have hsame : s.Agree s := ⟨rfl, fun _ => rfl⟩
  obtain ⟨hprepared, -, hagree⟩ := prepare_keeps merit span width held hs.sort hb
  have hagree := hagree hnew hs.sort hfresh (fresh_new g.size) hsame.sort
  obtain ⟨hprepared', hlisted, -⟩ := prepare_keeps merit span width held hs.sort hnew
  have hlisted := Listed.choose hg (hlisted (fresh_new g.size)) hprepared' hproper
  have htable := choose_table hg merit span
    (prepare merit span width held s.sort b).queue.capacity width hprepared hprepared' hagree
  obtain ⟨hbusy, -, hchosen⟩ := choose_keeps hg merit span
    (prepare merit span width held s.sort b).queue.capacity width hprepared
  obtain ⟨hchosen, -⟩ := hchosen hprepared' hagree hsame.sort
  refine ⟨select_agree hg merit span width held cell cell hs hs hsame hb hnew hfresh
    (fresh_new g.size), ?_, (select_keeps hg merit span width held cell hs hb).2.2.1, ?_⟩
  · rw [select_eq, select_eq]
    dsimp only
    rw [htable, hagree.queue.capacity]
  · have hlisted' : (choose g merit span (prepare merit span width held s.sort b).queue.capacity
        width (prepare merit span width held s.sort b, s.sort)).1.Listed
        (choose g merit span (prepare merit span width held s.sort b).queue.capacity
          width (prepare merit span width held s.sort b, s.sort)).2 := by
      intro nt hnt
      rw [hchosen.queued] at hnt
      rw [htable]
      rw [hagree.queue.capacity] at hnt ⊢
      exact hlisted nt hnt
    rw [select_eq]
    exact hbusy.forget.2.2.2 hlisted'

/-- What a cell is filled with. -/
structure Call where
  merit : Merit
  span : Span
  width : Nat
  held : Nat
  table : Scratch
  cell : Cell

/-- Fills a cell. -/
def Call.run (g : Grammar) (call : Call) (b : BeamSelector) : Cell × Scratch × BeamSelector :=
  b.select g call.merit call.span call.width call.held call.table call.cell

/-- Fills one cell after the other, with one selector. -/
def runAll (g : Grammar) : List Call → BeamSelector → List (Cell × Scratch) × BeamSelector
  | [], b => ([], b)
  | call :: calls, b =>
    let filled := call.run g b
    let rest := runAll g calls filled.2.2
    ((filled.1, filled.2.1) :: rest.1, rest.2)

theorem Idle.runAll (hg : g.Coherent) {calls : List Call}
    (hvalid : ∀ call ∈ calls, call.table.Valid g.size)
    (hproper : ∀ call ∈ calls,
      ∀ t ∈ turns g call.merit call.span call.width call.held call.table (new g.size),
        t.Proper g call.merit call.span)
    (hb : b.Idle g.size) (hfresh : b.Fresh) :
    (runAll g calls b).1 = calls.map (fun call =>
        ((call.run g (new g.size)).1, (call.run g (new g.size)).2.1)) ∧
      (runAll g calls b).2.Idle g.size ∧ (runAll g calls b).2.Fresh := by
  induction calls generalizing b with
  | nil => exact ⟨rfl, hb, hfresh⟩
  | cons call calls ih =>
    obtain ⟨hcell, htable, hidle, hfresh'⟩ := select_eq_new hg call.merit call.span call.width
      call.held call.cell (hvalid call List.mem_cons_self) hb hfresh
      (hproper call List.mem_cons_self)
    obtain ⟨hrest, hidle', hfresh''⟩ := ih (fun c hc => hvalid c (List.mem_cons_of_mem _ hc))
      (fun c hc => hproper c (List.mem_cons_of_mem _ hc)) hidle hfresh'
    refine ⟨?_, hidle', hfresh''⟩
    rw [List.map_cons, ← hrest]
    unfold Call.run
    rw [← hcell, ← htable]
    rfl

/-- A selector that fills one cell after the other does what a new one does for each, and in the
end has no merits and no entries left, if no cell is offered a parent that has the score of what
is absent and is ranked above it. -/
theorem runAll_eq_new {source : GrammarSource} {kind : PackingKind}
    (hg : Grammar.compile source kind = .ok g) {calls : List Call}
    (hvalid : ∀ call ∈ calls, call.table.Valid g.size)
    (hproper : ∀ call ∈ calls,
      ∀ t ∈ turns g call.merit call.span call.width call.held call.table (new g.size),
        t.Proper g call.merit call.span) :
    (runAll g calls (new g.size)).1 = calls.map (fun call =>
        ((call.run g (new g.size)).1, (call.run g (new g.size)).2.1)) ∧
      (runAll g calls (new g.size)).2.Idle g.size ∧
      (runAll g calls (new g.size)).2.Fresh :=
  Idle.runAll (Grammar.coherent_of_compile hg) hvalid hproper (idle_new g.size)
    (fresh_new g.size)

/-- The same cell twice, with a parent that is offered both times. -/
theorem runAll_eq_new_twice : ∃ g, ∃ call : Call,
    Grammar.compile (.sample true) .shift = .ok g ∧
    call.table.entryOf? 0 = some ⟨0, 0, .lexical 0, 0⟩ ∧
    (runAll g [call, call] (new g.size)).1 =
      [((call.run g (new g.size)).1, (call.run g (new g.size)).2.1),
        ((call.run g (new g.size)).1, (call.run g (new g.size)).2.1)] := by
  obtain ⟨g, hg, -⟩ := Grammar.exists_sample true
  have hlt : (0 : UInt16).toNat < g.size :=
    Nat.zero_lt_of_lt (Grammar.coherent_of_compile hg).start_lt
  obtain ⟨s, hs, -, hself, -⟩ :=
    Scratch.exists_single (e := ⟨0, 0, .lexical 0, 0⟩) hlt (by decide)
  have htwice {call call' : Call} (h : call ∈ [call', call']) : call = call' := by
    simpa using h
  refine ⟨g, ⟨.inside, ⟨0, 1⟩, 2, 1, s, .empty⟩, hg, hself, (runAll_eq_new hg ?_ ?_).1⟩
  · intro call hcall
    rw [htwice hcall]
    exact hs
  · intro call hcall t _
    rw [htwice hcall]
    exact t.proper_of_grounded Merit.grounded_inside _

end BeamSelector
end ChartParsing
