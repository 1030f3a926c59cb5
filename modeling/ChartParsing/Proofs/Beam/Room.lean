import ChartParsing.Proofs.Beam.Closed
import ChartParsing.Proofs.Beam.Turns
import ChartParsing.Proofs.Grammar.Making

/-!
# Cells with room

A turn takes away a place in the queue, and the place in the cell is given back only if nothing
is let in. So a cell can miss an entry although it has room. Here it is shown that such
fruitless turns are the only reason for that: a queue that keeps a place to the end was never
full, and nothing was refused or evicted.
-/

namespace ChartParsing

namespace BeamSelector

/-- The number of turns that let nothing in. -/
def fruitless (turns : List Turn) : Nat := turns.countP (·.admits?.isNone)

variable {g : Grammar} {merit : Merit} {span : Span} {s : Scratch} {b : BeamSelector}
  {queue : BeamQueue} {taken : UInt16 × Score} {count steps places : Nat}

/-! ## Places taken -/

/-- Each entry that was let in has a merit, and so has each in the queue. -/
structure Counted (count : Nat) (b : BeamSelector) (s : Scratch) : Prop where
  busy : b.Busy count s
  sound : b.queue.Sound
  ranks : ∀ x ∈ b.queue.toList, x.2 ≠ Score.absent
  admitted : ∀ nt ∈ b.chosen.populated.toList, b.admittedAt nt ≠ Score.absent

/-- A non-terminal was let in, or has an entry and is in the queue. -/
def Held (b : BeamSelector) (s : Scratch) (nt : UInt16) : Prop :=
  nt ∈ b.chosen.populated.toList ∨
    nt ∈ s.populated.toList ∧ ∃ x ∈ b.queue.toList, x.1 = nt

/-- Offering a parent loses nothing unless it fills the queue. -/
theorem Counted.offer (h : Counted count b s) (child : ChartEntry) {edge : UInt16 × Score}
    (hlt : edge.1.toNat < count) :
    let next := BeamSelector.offer merit span child (b, s) edge
    Counted count next.1 next.2 ∧ b.queue.Retains next.1.queue ∧
      (¬next.1.queue.Full → ∀ nt, b.Held s nt → next.1.Held next.2 nt) := by
  have hbusy := busy_offer h.busy merit span child hlt
  rw [offer_eq] at hbusy ⊢
  dsimp only at hbusy ⊢
  have hretains := h.sound.replace_retains edge.1 (merit.grade span (unaryEntry span child edge))
  have hranks : merit.grade span (unaryEntry span child edge) ≠ Score.absent →
      ∀ x ∈ (b.queue.replace edge.1 (merit.grade span (unaryEntry span child edge))).2.toList,
        x.2 ≠ Score.absent := by
    intro hne x hx
    rcases h.sound.mem_replace hx with rfl | hx
    · exact hne
    · exact h.ranks x hx
  split_ifs at hbusy ⊢ with habove hchanged
  · refine ⟨⟨hbusy, hretains.sound, hranks (Score.ne_absent_of_lt habove.1), h.admitted⟩, hretains,
      fun hroom nt hheld => hheld.imp_right fun ⟨hmem, x, hx, hnt⟩ => ?_⟩
    obtain ⟨y, hy, hxy⟩ := hretains.kept hroom x hx
    exact ⟨mem_set h.busy.scratch hlt hmem, y, hy, hxy.trans hnt⟩
  · refine ⟨⟨hbusy, hretains.sound, hranks (Score.ne_absent_of_lt habove.1), h.admitted⟩, hretains,
      fun hroom nt hheld => hheld.imp_right fun ⟨hmem, x, hx, hnt⟩ => ?_⟩
    obtain ⟨y, hy, hxy⟩ := hretains.kept hroom x hx
    exact ⟨hmem, y, hy, hxy.trans hnt⟩
  · exact ⟨h, h.sound.retains_self, fun _ _ hheld => hheld⟩

theorem Counted.foldl_offer (h : Counted count b s) (child : ChartEntry)
    {edges : List (UInt16 × Score)} (hedges : ∀ edge ∈ edges, edge.1.toNat < count) :
    let next := edges.foldl (BeamSelector.offer merit span child) (b, s)
    Counted count next.1 next.2 ∧ b.queue.Retains next.1.queue ∧
      (¬next.1.queue.Full → ∀ nt, b.Held s nt → next.1.Held next.2 nt) := by
  induction edges generalizing b s with
  | nil => exact ⟨h, h.sound.retains_self, fun _ _ hheld => hheld⟩
  | cons edge edges ih =>
    obtain ⟨hstep, hretains, hheld⟩ := h.offer child (hedges edge List.mem_cons_self)
    obtain ⟨hrest, hretains', hheld'⟩ := ih hstep fun e he => hedges e (List.mem_cons_of_mem _ he)
    exact ⟨hrest, hretains.trans hretains', fun hroom nt hnt =>
      hheld' hroom nt (hheld (fun hfull => hroom (hfull.extends hretains'.toExtends)) nt hnt)⟩

/-! ## Letting an entry in -/

theorem mem_accept (hb : b.Busy count s) {e : ChartEntry} (hlt : e.nt.toNat < count)
    (hne : e.inside ≠ Score.absent) (rank : Score) (nt : UInt16) :
    nt ∈ (b.accept e rank).chosen.populated.toList ↔
      nt = e.nt ∨ nt ∈ b.chosen.populated.toList := by
  rw [(busy_accept hb hlt hne rank).chosen.mem_iff, hb.chosen.mem_iff,
    entryOf?_accept hb hlt hne rank]
  split_ifs with heq <;> simp [heq]

/-- What was not let in before takes one more place. -/
theorem size_accept_of_not_mem (hb : b.Busy count s) {e : ChartEntry}
    (hne : e.inside ≠ Score.absent) (rank : Score)
    (hnew : e.nt ∉ b.chosen.populated.toList) :
    (b.accept e rank).chosen.size = b.chosen.size + 1 := by
  have hlist := Scratch.populated_write b.chosen e
  rw [hb.chosen.mem_iff, ← Option.isSome_iff_exists] at hnew
  rw [if_neg hnew] at hlist
  unfold accept Scratch.size
  dsimp only
  rw [Scratch.set_eq, if_neg hne, ← Array.length_toList, hlist, List.length_append,
    Array.length_toList]
  rfl

theorem Counted.accept (h : Counted count b s) {e : ChartEntry} (he : s.entryOf? e.nt = some e)
    {rank : Score} (hrank : rank ≠ Score.absent) : Counted count (b.accept e rank) s := by
  have hlt := h.busy.scratch.lt ((h.busy.scratch.mem_iff e.nt).2 ⟨e, he⟩)
  have hne := Scratch.present_of_entryOf? he
  refine ⟨busy_accept h.busy hlt hne rank, h.sound, h.ranks, fun nt hnt => ?_⟩
  rw [admittedAt_accept h.busy hlt]
  rw [mem_accept h.busy hlt hne] at hnt
  split_ifs with heq
  · exact hrank
  · exact h.admitted nt (hnt.resolve_left heq)

/-! ## Turns one after another -/

/-- A turn lets one more entry in or is fruitless. It loses nothing unless it fills the queue. -/
theorem Counted.turn (hg : g.Coherent) (merit : Merit) (span : Span) (places : Nat) {t : Turn}
    (h : Counted g.size t.selector t.table) (hrank : t.taken.2 ≠ Score.absent) :
    let next := weigh g merit span places t.taken (t.selector, t.table)
    Counted g.size next.2.1 next.2.2 ∧ t.selector.queue.Retains next.2.1.queue ∧
      places ≤ next.1 ∧
      next.2.1.chosen.size + (if t.admits?.isNone then 1 else 0) = t.selector.chosen.size + 1 ∧
      (¬next.2.1.queue.Full → ∀ nt,
        t.selector.Held t.table nt ∨ nt = t.taken.1 ∧ nt ∈ t.table.populated.toList →
        next.2.1.Held next.2.2 nt) := by
  rw [weigh_eq]
  cases hadmits : t.admits? with
  | none =>
    dsimp only
    have hlisted (nt : UInt16) : nt = t.taken.1 ∧ nt ∈ t.table.populated.toList →
        nt ∈ t.selector.chosen.populated.toList := by
      rintro ⟨rfl, hmem⟩
      obtain ⟨e, he⟩ := (h.busy.scratch.mem_iff _).1 hmem
      exact h.busy.listed _ ((Turn.admits?_eq_none.1 hadmits).resolve_right (by simp [he]))
    rcases t.exchange_cases hadmits with heq | ⟨e, he, hadmitted, -, heq⟩
    · rw [heq]
      refine ⟨h, h.sound.retains_self, Nat.le_succ _, rfl, fun _ nt hheld => ?_⟩
      exact hheld.elim id fun hnt => Or.inl (hlisted nt hnt)
    · rw [heq]
      have hnt := Scratch.nt_of_entryOf? he
      rw [← hnt] at he hadmitted
      have hlt := h.busy.scratch.lt ((h.busy.scratch.mem_iff e.nt).2 ⟨e, he⟩)
      have hmem := mem_accept h.busy hlt (Scratch.present_of_entryOf? he) t.taken.2
      refine ⟨h.accept he hrank, h.sound.retains_self, Nat.le_succ _, ?_, fun _ nt hheld => ?_⟩
      · rw [(@size_accept t.selector g.size e t.taken.2).2 (h.busy.listed e.nt hadmitted)
          h.busy.chosen]
        rfl
      · rcases hheld with hheld | hheld
        · exact hheld.imp_left fun hchosen => (hmem nt).2 (Or.inr hchosen)
        · exact Or.inl ((hmem nt).2 (Or.inr (hlisted nt hheld)))
  | some e =>
    obtain ⟨hadmitted, he⟩ := Turn.admits?_eq_some.1 hadmits
    have hnt := Scratch.nt_of_entryOf? he
    rw [← hnt] at he hadmitted
    have hlt := h.busy.scratch.lt ((h.busy.scratch.mem_iff e.nt).2 ⟨e, he⟩)
    have hne := Scratch.present_of_entryOf? he
    have hmem := mem_accept h.busy hlt hne t.taken.2
    have hnew : e.nt ∉ t.selector.chosen.populated.toList := fun hchosen =>
      h.admitted e.nt hchosen hadmitted
    obtain ⟨hcounted, hretains, hheld⟩ :=
      (h.accept he hrank).foldl_offer e (edges_lt hg t.taken.1)
    refine ⟨hcounted, hretains, Nat.le_refl _, ?_, fun hroom nt hnt' => hheld hroom nt ?_⟩
    · rw [chosen_foldl_offer, size_accept_of_not_mem h.busy hne _ hnew]
      rfl
    · rcases hnt' with hnt' | ⟨hnt', -⟩
      · exact hnt'.imp_left fun hchosen => (hmem nt).2 (Or.inr hchosen)
      · exact Or.inl ((hmem nt).2 (Or.inl (hnt'.trans hnt.symm)))

theorem Counted.pop (h : Counted count b s) (hpop : b.queue.pop? = some (taken, queue)) :
    Counted count { b with queue } s ∧ taken.2 ≠ Score.absent := by
  obtain ⟨hlist, hsound, -⟩ := h.sound.of_pop?_eq_some hpop
  exact ⟨⟨busy_queue h.busy queue, hsound, fun x hx => h.ranks x (hlist ▸ List.mem_cons_of_mem _ hx),
    h.admitted⟩, h.ranks taken (hlist ▸ List.mem_cons_self)⟩

/-- A turn, and the selector and the table after it. -/
structure Moves (g : Grammar) (b : BeamSelector) (s : Scratch) (t : Turn) (b' : BeamSelector)
    (s' : Scratch) : Prop where
  queue : b.queue.toList = t.taken :: t.selector.queue.toList
  capacity : b'.queue.capacity = b.queue.capacity - 1
  full : b.queue.Full → b'.queue.Full
  counted : Counted g.size b' s'
  size : b'.chosen.size + (if t.admits?.isNone then 1 else 0) = b.chosen.size + 1
  held : ¬b'.queue.Full → ∀ nt, b.Held s nt → b'.Held s' nt

/-- As long as there are steps and places left, a selection takes a turn, unless the queue is
empty. -/
theorem Counted.choose_succ (hg : g.Coherent) (h : Counted g.size b s) (merit : Merit)
    (span : Span) (steps places : Nat) :
    (b.queue.toList = [] ∧
      choose g merit span (steps + 1) (places + 1) (b, s) = (b, s) ∧
      turnsFrom g merit span (steps + 1) (places + 1) (b, s) = []) ∨
    ∃ t places' b' s', Moves g b s t b' s' ∧ places ≤ places' ∧
      choose g merit span (steps + 1) (places + 1) (b, s) =
        choose g merit span steps places' (b', s') ∧
      turnsFrom g merit span (steps + 1) (places + 1) (b, s) =
        t :: turnsFrom g merit span steps places' (b', s') := by
  cases hpop : b.queue.pop? with
  | none =>
    exact Or.inl ⟨h.sound.of_pop?_eq_none hpop, choose_of_none hpop, turnsFrom_of_none hpop⟩
  | some popped =>
    obtain ⟨taken, queue⟩ := popped
    obtain ⟨hlist, -, hcapacity, hfull⟩ := h.sound.of_pop?_eq_some hpop
    obtain ⟨hpopped, hrank⟩ := h.pop hpop
    let t : Turn := ⟨taken, { b with queue }, s⟩
    obtain ⟨hcounted, hretains, hmore, hsize, hheld⟩ :=
      Counted.turn hg merit span places (t := t) hpopped hrank
    refine Or.inr ⟨t, _, _, _, ⟨hlist, hretains.capacity.trans hcapacity, fun hb =>
      (hfull.1 hb).extends hretains.toExtends, hcounted, hsize, fun hroom nt hnt =>
        hheld hroom nt ?_⟩, hmore, choose_of_some hpop, turnsFrom_succ hpop⟩
    rcases hnt with hnt | ⟨hmem, x, hx, rfl⟩
    · exact Or.inl (Or.inl hnt)
    · rw [hlist, List.mem_cons] at hx
      rcases hx with rfl | hx
      · exact Or.inr ⟨rfl, hmem⟩
      · exact Or.inl (Or.inr ⟨hmem, x, hx, rfl⟩)

/-- Each turn lets an entry in or is fruitless. -/
theorem Counted.size_choose (hg : g.Coherent) (h : Counted g.size b s) :
    (choose g merit span steps places (b, s)).1.chosen.size +
        fruitless (turnsFrom g merit span steps places (b, s)) =
      b.chosen.size + (turnsFrom g merit span steps places (b, s)).length := by
  induction steps generalizing places b s with
  | zero =>
    simp only [choose]
    rfl
  | succ steps ih =>
    cases places with
    | zero =>
      simp only [choose]
      rfl
    | succ places =>
      rcases h.choose_succ hg merit span steps places with
        ⟨-, hchoose, hturns⟩ | ⟨t, places', b', s', hmoves, -, hchoose, hturns⟩
      · rw [hchoose, hturns]
        rfl
      · have hsize := hmoves.size
        have hrest := @ih _ _ places' hmoves.counted
        unfold fruitless at hrest
        rw [hchoose, hturns, fruitless, List.countP_cons, List.length_cons]
        omega

/-- A full queue hands out all that it has places for. -/
theorem Counted.length_of_full (hg : g.Coherent) (h : Counted g.size b s)
    (hfull : b.queue.Full) (hsteps : b.queue.capacity = steps) (hplaces : steps ≤ places) :
    (turnsFrom g merit span steps places (b, s)).length = steps := by
  induction steps generalizing places b s with
  | zero => rfl
  | succ steps ih =>
    obtain ⟨places, rfl⟩ := Nat.exists_eq_add_of_le' (Nat.le_trans (Nat.le_add_left 1 _) hplaces)
    rcases h.choose_succ hg merit span steps places with
      ⟨hempty, -⟩ | ⟨t, places', b', s', hmoves, hmore, -, hturns⟩
    · have hlength := hfull.length
      rw [hempty, hsteps] at hlength
      cases hlength
    · have hcapacity := hmoves.capacity
      rw [hturns, List.length_cons,
        ih hmoves.counted (hmoves.full hfull) (by omega) (by omega)]

/-- If not all places of the queue are used up, what is in the queue is let in. -/
theorem Counted.mem_choose (hg : g.Coherent) (h : Counted g.size b s)
    (hsteps : b.queue.capacity = steps) (hplaces : steps ≤ places)
    (hroom : (turnsFrom g merit span steps places (b, s)).length < steps) {nt : UInt16}
    (hheld : b.Held s nt) :
    nt ∈ (choose g merit span steps places (b, s)).1.chosen.populated.toList := by
  induction steps generalizing places b s with
  | zero => cases hroom
  | succ steps ih =>
    obtain ⟨places, rfl⟩ := Nat.exists_eq_add_of_le' (Nat.le_trans (Nat.le_add_left 1 _) hplaces)
    rcases h.choose_succ hg merit span steps places with
      ⟨hempty, hchoose, -⟩ | ⟨t, places', b', s', hmoves, hmore, hchoose, hturns⟩
    · rw [hchoose]
      refine hheld.resolve_right fun ⟨_, x, hx, _⟩ => ?_
      rw [hempty] at hx
      cases hx
    · have hcapacity := hmoves.capacity
      have hsteps' : b'.queue.capacity = steps := by omega
      have hplaces' : steps ≤ places' := by omega
      rw [hturns, List.length_cons] at hroom
      have hroom' := Nat.lt_of_succ_lt_succ hroom
      rw [hchoose]
      refine ih hmoves.counted hsteps' hplaces' hroom' (hmoves.held (fun hfull => ?_) nt hheld)
      -- a full queue would hand out all its places
      exact Nat.ne_of_lt hroom' (hmoves.counted.length_of_full hg hfull hsteps' hplaces')

/-! ## Filling a cell -/

/-- A queue that is not full has all that was queued. -/
theorem exists_mem_foldl_enqueue (hsound : b.queue.Sound) (rank : UInt16 → Score → Score)
    {nts : List UInt16} (hroom : ¬(nts.foldl (enqueue rank s) b).queue.Full) {nt : UInt16}
    (hnt : nt ∈ nts) : ∃ x ∈ (nts.foldl (enqueue rank s) b).queue.toList, x.1 = nt := by
  induction nts generalizing b with
  | nil => cases hnt
  | cons m nts ih =>
    have hinsert := hsound.insert_retains m (rank m (s.insideOf m))
    have hrest : (enqueue rank s b m).queue.Retains
        (nts.foldl (enqueue rank s) (enqueue rank s b m)).queue :=
      retains_enqueue hinsert.sound rank nts
    rcases List.mem_cons.1 hnt with rfl | hnt
    · have hroom' : ¬b.queue.Full := fun hfull =>
        hroom ((hfull.extends hinsert.toExtends).extends hrest.toExtends)
      refine hrest.kept hroom (nt, rank nt (s.insideOf nt)) ?_
      exact (hsound.perm_insert hroom' nt _).mem_iff.2 List.mem_cons_self
    · exact ih hinsert.sound hroom hnt

/-- Before anything is let in. -/
theorem counted_prepare (merit : Merit) (span : Span) (width : Nat) (hs : s.Valid count)
    (hb : b.Idle count)
    (hranks : ∀ nt e, s.entryOf? nt = some e → merit.rank span nt e.inside ≠ Score.absent) :
    Counted count (prepare merit span width 0 s b) s ∧
      (prepare merit span width 0 s b).queue.capacity = width ∧
      (¬(prepare merit span width 0 s b).queue.Full → ∀ nt ∈ s.populated.toList,
        (prepare merit span width 0 s b).Held s nt) := by
  have hbusy := (prepare_keeps merit span width 0 hs hb).1
  have hchosen := chosen_prepare merit span width 0 s b
  have hsound := BeamQueue.sound_clear b.queue width
  rw [prepare_unheld] at hbusy hchosen ⊢
  have hretains := retains_enqueue (s := s) (b := { b with queue := b.queue.clear width })
    hsound (merit.rank span) s.populated.toList
  refine ⟨⟨hbusy, hretains.sound, fun x hx => ?_, fun nt hnt => ?_⟩, hretains.capacity,
    fun hroom nt hnt => Or.inr ⟨hnt, exists_mem_foldl_enqueue hsound _ hroom hnt⟩⟩
  · rcases mem_foldl_enqueue hsound _ hx with hx | ⟨nt, hnt, rfl⟩
    · cases hx
    · obtain ⟨e, he⟩ := (hs.mem_iff nt).1 hnt
      rw [← Scratch.inside_of_entryOf? he]
      exact hranks nt e he
  · rw [hchosen, hb.empty] at hnt
    cases hnt

/-- The number of turns is that of the entries of the cell and of the fruitless turns. -/
theorem size_select (hg : g.Coherent) (merit : Merit) (span : Span) (width : Nat) (cell : Cell)
    (hs : s.Valid g.size) (hb : b.Idle g.size)
    (hranks : ∀ nt e, s.entryOf? nt = some e → merit.rank span nt e.inside ≠ Score.absent) :
    (b.select g merit span width 0 s cell).1.size +
        fruitless (turns g merit span width 0 s b) =
      (turns g merit span width 0 s b).length := by
  have hcounted := (counted_prepare merit span width hs.sort hb hranks).1
  have hchosen := chosen_prepare merit span width 0 s.sort b
  rw [select_eq]
  unfold turns
  dsimp only
  rw [Scratch.size_finalizeInto, hcounted.size_choose hg, hchosen, Scratch.size, hb.empty]
  exact Nat.zero_add _

/-- A cell of a compiled grammar has room for more only if all that was derived for it is in it,
or if turns were fruitless: then there is room for as many more entries as there were of them. -/
theorem select_fills {source : GrammarSource} {kind : PackingKind}
    (hg : Grammar.compile source kind = .ok g) (merit : Merit) (span : Span) (width : Nat)
    (cell : Cell) (hs : s.Valid g.size)
    (hranks : ∀ nt e, s.entryOf? nt = some e → merit.rank span nt e.inside ≠ Score.absent)
    (hroom : ((new g.size).select g merit span width 0 s cell).1.size +
      fruitless (turns g merit span width 0 s (new g.size)) < width) :
    ∀ nt e, s.entryOf? nt = some e →
      ∃ d, ((new g.size).select g merit span width 0 s cell).1.get? nt = some d := by
  have hg := Grammar.coherent_of_compile hg
  have hb := idle_new g.size
  intro nt e he
  rw [size_select hg merit span width cell hs hb hranks, turns] at hroom
  obtain ⟨hcounted, hcapacity, hheld⟩ := counted_prepare merit span width hs.sort hb hranks
  have hbusy := (choose_keeps hg merit span
    (prepare merit span width 0 s.sort (new g.size)).queue.capacity width hcounted.busy).1
  have hnt : nt ∈ s.sort.populated.toList := (hs.sort.mem_iff nt).2 ⟨e, he⟩
  have hmem := hcounted.mem_choose hg hcapacity (Nat.le_refl width)
    (by rwa [hcapacity] at hroom) (hheld ?_ nt hnt)
  · rw [select_eq]
    dsimp only
    rw [hbusy.chosen.get?_finalizeInto, ← hbusy.chosen.mem_iff, hcapacity]
    exact hmem
  · intro hfull
    rw [hcapacity, hcounted.length_of_full hg hfull hcapacity (Nat.le_refl width)] at hroom
    exact Nat.lt_irrefl _ hroom

/-! ## A fruitless turn -/

deriving instance Inhabited for RowMatrix, ColumnMatrix, PairHash, Packing, SiblingIndex, Grammar

/-- A tag, and its unary parent with a lower score than the rule gives it. -/
def requeued : Scratch :=
  ((Scratch.new 2).write ⟨0, -1, .lexical 0, 0⟩).write ⟨1, -2, .lexical 0, 0⟩

/-- Ranks the parent above its child. -/
def parentFirst : Merit := .ofScore fun _ _ nt inside => if nt = 1 then inside + 10 else inside

theorem sort_requeued : requeued.sort = requeued := by
  have hsorted : requeued.sorted = requeued.populated.toList := by
    unfold Scratch.sorted
    exact List.mergeSort_of_pairwise (by decide +kernel)
  unfold Scratch.sort
  rw [hsorted]

theorem valid_requeued : requeued.Valid 2 ∧ ∀ nt e, requeued.entryOf? nt = some e →
    parentFirst.rank ⟨0, 1⟩ nt e.inside ≠ Score.absent := by
  have hnew := Scratch.valid_new 2
  have htag := hnew.write (e := ⟨0, -1, .lexical 0, 0⟩) (by decide) (by decide +kernel)
  refine ⟨htag.write (by decide) (by decide +kernel), fun nt e he => ?_⟩
  rw [requeued, htag.entryOf?_write (by decide) (by decide +kernel),
    hnew.entryOf?_write (by decide) (by decide +kernel), hnew.entryOf?_of_empty rfl] at he
  split_ifs at he with hparent hchild
  · subst hparent
    cases he
    decide +kernel
  · subst hchild
    cases he
    decide +kernel

/-- The turns of the three entries that are queued: the parent, its child, and the parent again
with the edge from the child. -/
theorem turns_requeued {g : Grammar} (hg : Grammar.compile (.sample true) .shift = .ok g) :
    (turns g parentFirst ⟨0, 1⟩ 4 0 requeued (new 2)).length = 3 ∧
      fruitless (turns g parentFirst ⟨0, 1⟩ 4 0 requeued (new 2)) = 1 := by
  have hunary : g.unaryByChild = { (default : Grammar) with
      unaryByChild := ⟨#[0], #[0, 1], #[0, 1, 1], #[(1, 0)]⟩ }.unaryByChild :=
    Grammar.unaryByChild_sample hg
  unfold turns
  rw [sort_requeued, turnsFrom_congr hunary]
  decide +kernel

theorem select_fills_sample : ∃ g, Grammar.compile (.sample true) .shift = .ok g ∧
    fruitless (turns g parentFirst ⟨0, 1⟩ 4 0 requeued (new g.size)) = 1 ∧
    ∀ nt e, requeued.entryOf? nt = some e → ∃ d,
      ((new g.size).select g parentFirst ⟨0, 1⟩ 4 0 requeued .empty).1.get? nt = some d := by
  obtain ⟨g, hg, -⟩ := Grammar.exists_sample true
  obtain ⟨hlength, hfruitless⟩ := turns_requeued hg
  obtain ⟨hvalid, hranks⟩ := valid_requeued
  rw [← Grammar.size_sample hg] at hvalid hlength hfruitless
  refine ⟨g, hg, hfruitless, select_fills hg parentFirst ⟨0, 1⟩ 4 .empty hvalid hranks ?_⟩
  rw [size_select (Grammar.coherent_of_compile hg) parentFirst ⟨0, 1⟩ 4 .empty hvalid
    (idle_new g.size) hranks, hlength]
  decide

end BeamSelector
end ChartParsing
