import ChartParsing.Proofs.Beam.Monotone
import ChartParsing.Proofs.Beam.Truncation

/-!
# Turns

A selection takes turns: each takes an entry out of the queue. Most let in an entry and offer its
unary parents. Some do not: what was let in before only has its edge exchanged, and what has no
entry in the table is dropped.
-/

namespace ChartParsing

/-- How entries are ranked when they are first queued. -/
def Merit.rank (merit : Merit) (span : Span) (nt : UInt16) (inside : Score) : Score :=
  if span.width = 1 then merit.lexicalScore span.start span.stop nt inside
  else merit.score span.start span.stop nt inside

/-- How an entry is ranked that a unary rule derives. -/
def Merit.grade (merit : Merit) (span : Span) (e : ChartEntry) : Score :=
  merit.score span.start span.stop e.nt e.inside

theorem Merit.rank_inside (span : Span) (nt : UInt16) (inside : Score) :
    Merit.inside.rank span nt inside = inside := ite_self _

namespace BeamSelector

/-- The entry taken out of the queue, and the selector and the table after that. -/
structure Turn where
  taken : UInt16 × Score
  selector : BeamSelector
  table : Scratch

/-- The entry that is let in, if its non-terminal has one and was not let in before. -/
def Turn.admits? (t : Turn) : Option ChartEntry :=
  if t.selector.admittedAt t.taken.1 != Score.absent then none else t.table.entryOf? t.taken.1

/-- No parent that is offered is ranked above what is absent with the score of what is absent. -/
def Turn.Proper (g : Grammar) (merit : Merit) (span : Span) (t : Turn) : Prop :=
  ∀ e parent rule, t.admits? = some e → g.HasUnary parent e.nt rule →
    rule + e.inside = Score.absent → merit.GroundedAt span parent

theorem Turn.proper_of_grounded {g : Grammar} {merit : Merit} (hmerit : merit.Grounded)
    (span : Span) (t : Turn) : t.Proper g merit span := fun _ parent _ _ _ _ => hmerit _ _ parent

/-- The selector after a turn that lets nothing in. -/
def Turn.exchange (t : Turn) : BeamSelector :=
  match t.table.entryOf? t.taken.1 with
  | some e =>
    if t.selector.admittedAt t.taken.1 < t.taken.2 then t.selector.accept e t.taken.2
    else t.selector
  | none => t.selector

/-- The turns in which entries are chosen. -/
def turnsFrom (g : Grammar) (merit : Merit) (span : Span) :
    (steps places : Nat) → BeamSelector × Scratch → List Turn
  | 0, _, _ => []
  | _, 0, _ => []
  | steps + 1, places + 1, (b, s) =>
    match b.queue.pop? with
    | none => []
    | some (taken, queue) =>
      let next := weigh g merit span places taken ({ b with queue }, s)
      ⟨taken, { b with queue }, s⟩ :: turnsFrom g merit span steps next.1 next.2

/-- The turns in which a cell is filled. -/
def turns (g : Grammar) (merit : Merit) (span : Span) (width held : Nat) (s : Scratch)
    (b : BeamSelector) : List Turn :=
  let prepared := prepare merit span width held s.sort b
  turnsFrom g merit span prepared.queue.capacity width (prepared, s.sort)

variable {g : Grammar} {merit : Merit} {span : Span} {s : Scratch} {b : BeamSelector}
  {queue : BeamQueue} {taken : UInt16 × Score} {count steps places : Nat} {nt : UInt16}

theorem turnsFrom_of_none (hpop : b.queue.pop? = none) :
    turnsFrom g merit span steps places (b, s) = [] := by
  cases steps with
  | zero => rfl
  | succ steps =>
    cases places with
    | zero => rfl
    | succ places => rw [turnsFrom, hpop]

theorem choose_of_none (hpop : b.queue.pop? = none) :
    choose g merit span steps places (b, s) = (b, s) := by
  cases steps with
  | zero => rw [choose]
  | succ steps =>
    cases places with
    | zero => rw [choose]; exact Nat.succ_ne_zero steps
    | succ places => rw [choose_succ, hpop]

/-- A turn and those after it. -/
theorem turnsFrom_succ (hpop : b.queue.pop? = some (taken, queue)) :
    turnsFrom g merit span (steps + 1) (places + 1) (b, s) =
      ⟨taken, { b with queue }, s⟩ :: turnsFrom g merit span steps
        (weigh g merit span places taken ({ b with queue }, s)).1
        (weigh g merit span places taken ({ b with queue }, s)).2 := by
  rw [turnsFrom, hpop]

theorem choose_of_some (hpop : b.queue.pop? = some (taken, queue)) :
    choose g merit span (steps + 1) (places + 1) (b, s) = choose g merit span steps
      (weigh g merit span places taken ({ b with queue }, s)).1
      (weigh g merit span places taken ({ b with queue }, s)).2 := by
  rw [choose_succ, hpop]

/-- What is turned to depends on a grammar by its unary rules alone. -/
theorem turnsFrom_congr {h : Grammar} (hunary : h.unaryByChild = g.unaryByChild) :
    turnsFrom h merit span steps places (b, s) = turnsFrom g merit span steps places (b, s) := by
  induction steps generalizing places b s with
  | zero => rfl
  | succ steps ih =>
    cases places with
    | zero => rfl
    | succ places =>
      cases hpop : b.queue.pop? with
      | none => rw [turnsFrom_of_none hpop, turnsFrom_of_none hpop]
      | some popped =>
        rw [turnsFrom_succ hpop, turnsFrom_succ hpop]
        have hweigh (places taken state) :
            weigh h merit span places taken state = weigh g merit span places taken state := by
          simp only [weigh, hunary]
        rw [hweigh, ih]

/-- All that a turn can do. -/
theorem weigh_eq (t : Turn) (places : Nat) :
    weigh g merit span places t.taken (t.selector, t.table) = match t.admits? with
      | none => (places + 1, t.exchange, t.table)
      | some e => (places, (g.unaryByChild.column t.taken.1.toUInt32).foldl (offer merit span e)
          (t.selector.accept e t.taken.2, t.table)) := by
  unfold weigh Turn.admits? Turn.exchange
  dsimp only
  cases t.table.entryOf? t.taken.1 with
  | none => simp only [ite_self]
  | some e =>
    dsimp only
    by_cases hadmitted : (t.selector.admittedAt t.taken.1 != Score.absent) = true
    · rw [if_pos hadmitted, if_pos hadmitted]
    · rw [if_neg hadmitted, if_neg hadmitted]

theorem Turn.admits?_eq_some {t : Turn} {e : ChartEntry} : t.admits? = some e ↔
    t.selector.admittedAt t.taken.1 = Score.absent ∧ t.table.entryOf? t.taken.1 = some e := by
  unfold Turn.admits?
  split_ifs with hadmitted
  · simp [Scratch.bne_absent.1 hadmitted]
  · rw [Scratch.bne_absent, not_not] at hadmitted
    simp [hadmitted]

/-- What is taken out in vain has no entry or was let in before. -/
theorem Turn.admits?_eq_none {t : Turn} : t.admits? = none ↔
    t.selector.admittedAt t.taken.1 ≠ Score.absent ∨ t.table.entryOf? t.taken.1 = none := by
  unfold Turn.admits?
  split_ifs with hadmitted
  · simp [Scratch.bne_absent.1 hadmitted]
  · rw [Scratch.bne_absent, not_not] at hadmitted
    simp [hadmitted]

/-- What was let in before is exchanged for a better edge, or stays as it is. -/
theorem Turn.exchange_cases (t : Turn) (hadmits : t.admits? = none) : t.exchange = t.selector ∨
    ∃ e, t.table.entryOf? t.taken.1 = some e ∧
      t.selector.admittedAt t.taken.1 ≠ Score.absent ∧
      t.selector.admittedAt t.taken.1 < t.taken.2 ∧
      t.exchange = t.selector.accept e t.taken.2 := by
  unfold Turn.exchange
  cases he : t.table.entryOf? t.taken.1 with
  | none => exact Or.inl rfl
  | some e =>
    dsimp only
    split_ifs with habove
    · have hadmitted := (Turn.admits?_eq_none.1 hadmits).resolve_right (by simp [he])
      exact Or.inr ⟨e, rfl, hadmitted, habove, rfl⟩
    · exact Or.inl rfl

/-! ## Letting entries in and offering parents -/

theorem admittedAt_accept (hb : b.Busy count s) {e : ChartEntry} (hlt : e.nt.toNat < count)
    (rank : Score) (nt : UInt16) :
    (b.accept e rank).admittedAt nt = if nt = e.nt then rank else b.admittedAt nt :=
  Scratch.getD_set _ (by rw [hb.admitted_size]; exact hlt) _ _ _

/-- The entry that a unary edge derives from the entry of its child. -/
def unaryEntry (span : Span) (child : ChartEntry) (edge : UInt16 × Score) : ChartEntry :=
  ⟨edge.1, edge.2 + child.inside, .unary child.nt, span.stop⟩

/-- All that offering a parent can do. -/
theorem offer_eq (child : ChartEntry) (edge : UInt16 × Score) :
    offer merit span child (b, s) edge =
      let e := unaryEntry span child edge
      let replaced := b.queue.replace edge.1 (merit.grade span e)
      if b.queuedAt edge.1 < merit.grade span e ∧ b.admittedAt edge.1 < merit.grade span e then
        if replaced.1 then
          ({ b with
            queue := replaced.2
            queued := b.queued.setIfInBounds edge.1.toNat (merit.grade span e) }, s.set e)
        else ({ b with queue := replaced.2 }, s)
      else (b, s) := by
  unfold offer Merit.grade unaryEntry
  refine if_congr Iff.rfl ?_ rfl
  dsimp only
  generalize b.queue.replace edge.1
    (merit.score span.start span.stop edge.1 (edge.2 + child.inside)) = replaced
  obtain ⟨changed, queue⟩ := replaced
  cases changed <;> rfl

/-! ## Queueing the entries of the table -/

theorem retains_enqueue (hsound : b.queue.Sound) (rank : UInt16 → Score → Score)
    (nts : List UInt16) : b.queue.Retains (nts.foldl (enqueue rank s) b).queue := by
  induction nts generalizing b with
  | nil => exact hsound.retains_self
  | cons nt nts ih =>
    have hstep := hsound.insert_retains nt (rank nt (s.insideOf nt))
    exact hstep.trans (ih (b := enqueue rank s b nt) hstep.sound)

/-- If no places are held back, all entries of the table compete for all places. -/
theorem prepare_unheld (merit : Merit) (span : Span) (width : Nat) (s : Scratch)
    (b : BeamSelector) : prepare merit span width 0 s b =
      s.populated.toList.foldl (enqueue (merit.rank span) s)
        { b with queue := b.queue.clear width } := by
  have hcleared : (b.queue.clear width).setMaxSize (width - 0) = b.queue.clear width :=
    (BeamQueue.sound_clear b.queue width).setMaxSize_capacity
  have hretains := retains_enqueue (s := s) (b := { b with queue := b.queue.clear width })
    (BeamQueue.sound_clear b.queue width) (merit.rank span) s.populated.toList
  unfold prepare
  dsimp only
  rw [hcleared, ite_self]
  change (if span.width = 1 then { s.populated.toList.foldl (enqueue (merit.rank span) s)
    { b with queue := b.queue.clear width } with
      queue := (s.populated.toList.foldl (enqueue (merit.rank span) s)
        { b with queue := b.queue.clear width }).queue.setMaxSize width }
    else s.populated.toList.foldl (enqueue (merit.rank span) s)
      { b with queue := b.queue.clear width }) = _
  generalize s.populated.toList.foldl (enqueue (merit.rank span) s)
    { b with queue := b.queue.clear width } = c at hretains ⊢
  have hcapacity : c.queue.capacity = width := hretains.capacity
  split_ifs
  · rw [← hcapacity, hretains.sound.setMaxSize_capacity]
  · rfl

theorem mem_foldl_enqueue (hsound : b.queue.Sound) (rank : UInt16 → Score → Score)
    {nts : List UInt16} {x : UInt16 × Score}
    (hx : x ∈ (nts.foldl (enqueue rank s) b).queue.toList) :
    x ∈ b.queue.toList ∨ ∃ nt ∈ nts, x = (nt, rank nt (s.insideOf nt)) := by
  induction nts generalizing b with
  | nil => exact Or.inl hx
  | cons nt nts ih =>
    rcases ih (hsound.insert_extends nt (rank nt (s.insideOf nt))).sound hx with
      hmem | ⟨m, hm, heq⟩
    · rcases hsound.mem_insert hmem with rfl | hmem
      · exact Or.inr ⟨nt, List.mem_cons_self, rfl⟩
      · exact Or.inl hmem
    · exact Or.inr ⟨m, List.mem_cons_of_mem _ hm, heq⟩

end BeamSelector
end ChartParsing
