import ChartParsing.Proofs.Beam.Contest

/-!
# Limited selections

A selection for a cell with `n` places takes the first `n` turns of the contest without limits,
whatever it refuses and evicts: before each turn its queue holds as many of the waiting entries as
it can still take out, and what it does not hold makes no difference to those. That takes one
condition. A parent whose edge has the score of what is absent gets no entry in the table; if it
is ranked above that all the same, it comes with an entry that perhaps only a wider queue let in.
-/

namespace ChartParsing

open BeamSelector (Turn unaryEntry)

namespace Contest

/-- A selection is a contest of which the queue holds only as much as it can still take out. What
else the contest has queued is no better than what is in the queue, which is full. -/
structure Truncates (count : Nat) (c : Contest) (b : BeamSelector) (s : Scratch) : Prop where
  busy : b.Busy count s
  sound : b.queue.Sound
  waiting : b.queue.toList = c.waiting.take b.queue.capacity
  admitted : ∀ nt, b.admittedAt nt = c.admitted nt
  chosen : ∀ nt, b.chosen.entryOf? nt = c.chosen nt
  same : ∀ x ∈ b.queue.toList, b.queuedAt x.1 = c.queued x.1 ∧ s.entryOf? x.1 = c.table x.1
  queued : ∀ nt, b.queuedAt nt = c.queued nt ∨
    (b.queuedAt nt ≤ c.queued nt ∧ b.queue.Full ∧ ∀ x ∈ b.queue.toList, c.queued nt ≤ x.2)

variable {g : Grammar} {merit : Merit} {span : Span} {c : Contest} {s : Scratch}
  {b : BeamSelector} {count steps places : Nat}

theorem Truncates.mem (h : Truncates count c b s) {x : UInt16 × Score}
    (hx : x ∈ b.queue.toList) : x ∈ c.waiting := by
  rw [h.waiting] at hx
  exact List.mem_of_mem_take hx

theorem Truncates.ranked (h : Truncates count c b s) (hc : c.Orderly) :
    BeamQueue.Ranked b.queue.toList := by
  rw [h.waiting]
  exact hc.ranked.of_sublist (List.take_sublist _ _)

/-- What is above all that the contest has queued is above all that the selection has. -/
theorem Truncates.above (h : Truncates count c b s) {nt : UInt16} {rank : Score}
    (habove : c.queued nt < rank) : b.queuedAt nt < rank := by
  rcases h.queued nt with heq | ⟨hle, -⟩
  · rwa [heq]
  · exact Score.lt_of_le_of_lt hle habove

/-! ## Offering a unary parent -/

/-- The queue holds what it can of the ranking in which an entry was queued. -/
theorem Truncates.waiting_raise (h : Truncates count c b s) (hc : c.Orderly) {e : ChartEntry}
    {rank : Score} (habove : c.queued e.nt < rank) :
    (b.queue.replace e.nt rank).2.toList =
      (c.raise e rank).waiting.take (b.queue.replace e.nt rank).2.capacity := by
  have hnumber : rank.isNaN = false := (Score.lt_iff.1 habove).2.1
  rw [h.sound.toList_replace (h.ranked hc) hnumber, h.waiting,
    (h.sound.replace_extends e.nt rank).capacity, BeamQueue.take_rerank hc.ranked]
  rfl

/-- The queue takes an entry in. -/
theorem Truncates.raise (h : Truncates count c b s) (hc : c.Orderly) {e : ChartEntry}
    (hlt : e.nt.toNat < count) (hne : e.inside ≠ Score.absent) {rank : Score}
    (habove : c.queued e.nt < rank) (hchanged : (b.queue.replace e.nt rank).1 = true)
    (hbusy : ({ b with
      queue := (b.queue.replace e.nt rank).2
      queued := b.queued.setIfInBounds e.nt.toNat rank } : BeamSelector).Busy count (s.set e)) :
    Truncates count (c.raise e rank) { b with
      queue := (b.queue.replace e.nt rank).2
      queued := b.queued.setIfInBounds e.nt.toNat rank } (s.set e) := by
  have hextends := h.sound.replace_extends e.nt rank
  have hqueued (nt : UInt16) : ({ b with
      queue := (b.queue.replace e.nt rank).2
      queued := b.queued.setIfInBounds e.nt.toNat rank } : BeamSelector).queuedAt nt =
      if nt = e.nt then rank else b.queuedAt nt :=
    BeamSelector.queuedAt_set h.busy.queued_size hlt rank nt
  have hentry : ∀ nt, (s.set e).entryOf? nt = if nt = e.nt then some e else s.entryOf? nt := by
    rw [Scratch.set_eq, if_neg hne]
    exact h.busy.scratch.entryOf?_write hlt hne
  refine ⟨hbusy, hextends.sound, h.waiting_raise hc habove, h.admitted, h.chosen, fun x hx => ?_,
    fun nt => ?_⟩
  · rw [hqueued, hentry, queued_raise, table_raise c hne]
    split_ifs with heq
    · exact ⟨rfl, rfl⟩
    · rcases h.sound.mem_replace hx with rfl | hx
      · exact absurd rfl heq
      · exact h.same x hx
  · rw [hqueued, queued_raise]
    split_ifs with heq
    · exact Or.inl rfl
    · refine (h.queued nt).imp_right fun ⟨hle, hfull, hall⟩ =>
        ⟨hle, hfull.extends hextends, fun x hx => ?_⟩
      rcases h.sound.mem_replace hx with rfl | hx
      · -- the entry came in for one that is below it
        obtain ⟨y, hy, hlt'⟩ := h.sound.replace_changed (h.ranked hc) (Score.lt_iff.1 habove).2.1
          hchanged hfull
        exact Score.le_of_lt (Score.lt_of_le_of_lt (hall y hy) hlt')
      · exact hall x hx

/-- The queue refuses an entry. -/
theorem Truncates.refuse (h : Truncates count c b s) (hc : c.Orderly) {e : ChartEntry}
    (hne : e.inside ≠ Score.absent) {rank : Score} (habove : c.queued e.nt < rank)
    (hunchanged : (b.queue.replace e.nt rank).1 = false) :
    Truncates count (c.raise e rank) { b with queue := (b.queue.replace e.nt rank).2 } s := by
  have hwaiting := h.waiting_raise hc habove
  have hbelow {x : UInt16 × Score} (hx : x ∈ b.queue.toList) (hnt : x.1 = e.nt) : x.2 < rank := by
    rw [← hc.queued x (h.mem hx), hnt]
    exact habove
  obtain ⟨hsame, hrefused⟩ := h.sound.replace_unchanged (h.ranked hc) hunchanged
  obtain ⟨hfull, hall⟩ := hrefused.resolve_left fun ⟨x, hx, hnt, hnot⟩ => hnot (hbelow hx hnt)
  rw [hsame] at hwaiting ⊢
  refine ⟨h.busy, h.sound, hwaiting, h.admitted, h.chosen, fun x hx => ?_, fun nt => ?_⟩
  · have hother : x.1 ≠ e.nt := fun hnt =>
      Score.not_lt_of_le (hall x hx) (hbelow hx hnt)
    rw [queued_raise, table_raise c hne, if_neg hother, if_neg hother]
    exact h.same x hx
  · rw [queued_raise]
    split_ifs with heq
    · rw [heq]
      exact Or.inr ⟨Score.le_of_lt (h.above habove), hfull, hall⟩
    · exact h.queued nt

/-- What a selection only offers because it refused something better before, it refuses. -/
theorem Truncates.replace_eq (h : Truncates count c b s) (hc : c.Orderly) {nt : UInt16}
    {rank : Score} (habove : b.queuedAt nt < rank) (hnot : ¬c.queued nt < rank) :
    b.queue.replace nt rank = (false, b.queue) := by
  rcases h.queued nt with heq | ⟨hle, hfull, hall⟩
  · rw [heq] at habove
    exact absurd habove hnot
  · have hge : rank ≤ c.queued nt :=
      Score.le_of_not_lt (Score.le_iff.1 hle).2.1 (Score.lt_iff.1 habove).2.1 hnot
    exact h.sound.replace_refused (h.ranked hc) hfull fun x hx => Score.le_trans hge (hall x hx)

/-- Offering a parent to a selection and to the contest. -/
theorem Truncates.offer (h : Truncates count c b s) (hc : c.Orderly) (child : ChartEntry)
    {edge : UInt16 × Score} (hlt : edge.1.toNat < count)
    (hproper : edge.2 + child.inside = Score.absent → merit.GroundedAt span edge.1) :
    let next := BeamSelector.offer merit span child (b, s) edge
    Truncates count (c.offer merit span child edge) next.1 next.2 ∧
      next.1.queue.capacity = b.queue.capacity := by
  have hbusy := BeamSelector.busy_offer h.busy merit span child hlt
  have hcapacity := (h.sound.replace_extends edge.1
    (merit.grade span (unaryEntry span child edge))).capacity
  rw [BeamSelector.offer_eq] at hbusy ⊢
  unfold Contest.offer
  dsimp only at hbusy ⊢
  rw [h.admitted] at hbusy ⊢
  by_cases hwide : c.queued edge.1 < merit.grade span (unaryEntry span child edge) ∧
      c.admitted edge.1 < merit.grade span (unaryEntry span child edge)
  · have hne : (unaryEntry span child edge).inside ≠ Score.absent := by
      intro habsent
      refine hproper habsent ?_
      have hpresent := Score.present_of_lt hwide.1
      rwa [Merit.grade, habsent] at hpresent
    rw [if_pos hwide]
    rw [if_pos ⟨h.above hwide.1, hwide.2⟩] at hbusy ⊢
    split_ifs at hbusy ⊢ with hchanged
    · exact ⟨h.raise hc hlt hne hwide.1 hchanged hbusy, hcapacity⟩
    · rw [Bool.not_eq_true] at hchanged
      exact ⟨h.refuse hc hne hwide.1 hchanged, hcapacity⟩
  · rw [if_neg hwide]
    by_cases hnarrow : b.queuedAt edge.1 < merit.grade span (unaryEntry span child edge) ∧
        c.admitted edge.1 < merit.grade span (unaryEntry span child edge)
    · rw [if_pos hnarrow, h.replace_eq hc hnarrow.1 fun habove => hwide ⟨habove, hnarrow.2⟩]
      exact ⟨h, rfl⟩
    · rw [if_neg hnarrow]
      exact ⟨h, rfl⟩

theorem Truncates.foldl_offer (h : Truncates count c b s) (hc : c.Orderly) (child : ChartEntry)
    {edges : List (UInt16 × Score)} (hedges : ∀ edge ∈ edges, edge.1.toNat < count)
    (hproper : ∀ edge ∈ edges,
      edge.2 + child.inside = Score.absent → merit.GroundedAt span edge.1) :
    let next := edges.foldl (BeamSelector.offer merit span child) (b, s)
    Truncates count (edges.foldl (Contest.offer merit span child) c) next.1 next.2 ∧
      next.1.queue.capacity = b.queue.capacity := by
  induction edges generalizing b c s with
  | nil => exact ⟨h, rfl⟩
  | cons edge edges ih =>
    obtain ⟨hstep, hcapacity⟩ :=
      h.offer hc child (hedges edge List.mem_cons_self) (hproper edge List.mem_cons_self)
    obtain ⟨hrest, hcapacity'⟩ := ih hstep (hc.offer merit span child edge)
      (fun e he => hedges e (List.mem_cons_of_mem _ he))
      fun e he => hproper e (List.mem_cons_of_mem _ he)
    exact ⟨hrest, hcapacity'.trans hcapacity⟩

/-! ## A turn -/

theorem Truncates.accept (h : Truncates count c b s) {e : ChartEntry}
    (he : s.entryOf? e.nt = some e) (rank : Score) :
    Truncates count (c.accept e rank) (b.accept e rank) s := by
  have hlt := h.busy.scratch.lt ((h.busy.scratch.mem_iff e.nt).2 ⟨e, he⟩)
  have hne := Scratch.present_of_entryOf? he
  refine ⟨BeamSelector.busy_accept h.busy hlt hne rank, h.sound, h.waiting, fun nt => ?_,
    fun nt => ?_, h.same, h.queued⟩
  · rw [BeamSelector.admittedAt_accept h.busy hlt, h.admitted]
    exact (Function.update_apply ..).symm
  · rw [BeamSelector.entryOf?_accept h.busy hlt hne, h.chosen]
    exact (Function.update_apply ..).symm

theorem Truncates.admits? {t : Turn} (h : Truncates count c t.selector t.table)
    (hsame : t.table.entryOf? t.taken.1 = c.table t.taken.1) :
    t.admits? = c.admits? t.taken.1 := by
  unfold Turn.admits? Contest.admits?
  rw [h.admitted, hsame]

/-- A turn of a selection and of the contest. -/
theorem Truncates.weigh (hg : g.Coherent) {t : Turn}
    (h : Truncates g.size c t.selector t.table) (hc : c.Orderly)
    (hsame : t.table.entryOf? t.taken.1 = c.table t.taken.1)
    (hproper : t.Proper g merit span) (places : Nat) :
    let next := BeamSelector.weigh g merit span places t.taken (t.selector, t.table)
    Truncates g.size (c.weigh g merit span t.taken) next.2.1 next.2.2 ∧
      next.2.1.queue.capacity = t.selector.queue.capacity ∧ places ≤ next.1 := by
  have hadmits := h.admits? hsame
  rw [BeamSelector.weigh_eq]
  unfold Contest.weigh
  rw [← hadmits, ← hsame]
  cases hentry : t.admits? with
  | none =>
    unfold Turn.exchange
    cases he : t.table.entryOf? t.taken.1 with
    | none => exact ⟨h, rfl, Nat.le_succ _⟩
    | some e =>
      have hnt := Scratch.nt_of_entryOf? he
      rw [← hnt] at he
      dsimp only
      rw [h.admitted]
      split_ifs
      · exact ⟨h.accept he t.taken.2, rfl, Nat.le_succ _⟩
      · exact ⟨h, rfl, Nat.le_succ _⟩
  | some e =>
    obtain ⟨-, he⟩ := Turn.admits?_eq_some.1 hentry
    have hnt := Scratch.nt_of_entryOf? he
    rw [← hnt] at he
    obtain ⟨hnext, hcapacity⟩ := (h.accept he t.taken.2).foldl_offer (hc.accept e t.taken.2) e
      (BeamSelector.edges_lt hg t.taken.1) (fun edge hedge => by
        rw [← hnt] at hedge
        exact hproper e edge.1 edge.2 hentry (hg.unary.1 hedge))
    exact ⟨hnext, hcapacity, Nat.le_refl _⟩

theorem Truncates.pop_none (h : Truncates count c b s) (hcapacity : 0 < b.queue.capacity)
    (hpop : b.queue.pop? = none) : c.waiting = [] := by
  have hwaiting := h.waiting
  rw [h.sound.of_pop?_eq_none hpop] at hwaiting
  exact (List.take_eq_nil_iff.1 hwaiting.symm).resolve_left (Nat.ne_of_gt hcapacity)

/-- What the queue hands out waits first. -/
theorem Truncates.pop_some (h : Truncates count c b s) (hcapacity : 0 < b.queue.capacity)
    {taken : UInt16 × Score} {queue : BeamQueue} (hpop : b.queue.pop? = some (taken, queue)) :
    ∃ rest, c.waiting = taken :: rest ∧
      Truncates count { c with waiting := rest } { b with queue } s ∧
      s.entryOf? taken.1 = c.table taken.1 ∧ queue.capacity = b.queue.capacity - 1 := by
  obtain ⟨hlist, hsound, hless, hfull⟩ := h.sound.of_pop?_eq_some hpop
  have hwaiting := h.waiting
  rw [hlist] at hwaiting
  obtain ⟨n, hn⟩ := Nat.exists_eq_add_of_le' hcapacity
  rw [hn] at hwaiting
  cases hw : c.waiting with
  | nil =>
    rw [hw] at hwaiting
    cases hwaiting
  | cons x rest =>
    rw [hw, List.take_succ_cons] at hwaiting
    obtain ⟨rfl, hrest⟩ := List.cons.inj hwaiting
    have hmem {y : UInt16 × Score} (hy : y ∈ queue.toList) : y ∈ b.queue.toList := by
      rw [hlist]
      exact List.mem_cons_of_mem _ hy
    refine ⟨rest, rfl, ⟨BeamSelector.busy_queue h.busy queue, hsound, ?_, h.admitted, h.chosen,
      fun y hy => h.same y (hmem hy), fun nt => ?_⟩, (h.same taken ?_).2, hless⟩
    · dsimp only
      rw [hrest, hless, hn, Nat.add_sub_cancel]
    · exact (h.queued nt).imp_right fun ⟨hle, hfull', hall⟩ =>
        ⟨hle, hfull.1 hfull', fun y hy => hall y (hmem hy)⟩
    · rw [hlist]
      exact List.mem_cons_self

/-! ## Turns one after another -/

/-- As long as there are steps and places left, a selection takes the next turn of the contest. -/
theorem Truncates.choose_succ (hg : g.Coherent) (h : Truncates g.size c b s) (hc : c.Orderly)
    (hcapacity : 0 < b.queue.capacity) (merit : Merit) (span : Span) (steps places : Nat) :
    (c.waiting = [] ∧
      BeamSelector.choose g merit span (steps + 1) (places + 1) (b, s) = (b, s) ∧
      BeamSelector.turnsFrom g merit span (steps + 1) (places + 1) (b, s) = []) ∨
    ∃ t rest places' b' s', c.waiting = t.taken :: rest ∧
      (t.Proper g merit span ↔ c.Proper g merit span) ∧
      (t.Proper g merit span → Truncates g.size (turn g merit span c) b' s' ∧
        b'.queue.capacity = b.queue.capacity - 1 ∧ places ≤ places') ∧
      (turn g merit span c).Orderly ∧
      BeamSelector.choose g merit span (steps + 1) (places + 1) (b, s) =
        BeamSelector.choose g merit span steps places' (b', s') ∧
      BeamSelector.turnsFrom g merit span (steps + 1) (places + 1) (b, s) =
        t :: BeamSelector.turnsFrom g merit span steps places' (b', s') := by
  cases hpop : b.queue.pop? with
  | none =>
    exact Or.inl ⟨h.pop_none hcapacity hpop, BeamSelector.choose_of_none hpop,
      BeamSelector.turnsFrom_of_none hpop⟩
  | some popped =>
    obtain ⟨taken, queue⟩ := popped
    obtain ⟨rest, hwaiting, hrest, hsame, hless⟩ := h.pop_some hcapacity hpop
    let t : Turn := ⟨taken, { b with queue }, s⟩
    have hiff : t.Proper g merit span ↔ c.Proper g merit span := by
      unfold Turn.Proper
      rw [proper_iff_of_cons hwaiting, hrest.admits? (t := t) hsame]
      rfl
    refine Or.inr ⟨t, rest, _, _, _, hwaiting, hiff, fun hproper => ?_, ?_,
      BeamSelector.choose_of_some hpop, BeamSelector.turnsFrom_succ hpop⟩
    · rw [turn_of_cons hwaiting]
      obtain ⟨htruncates, hsame', hmore⟩ :=
        hrest.weigh hg (t := t) (hc.rest hwaiting) hsame hproper places
      exact ⟨htruncates, hsame'.trans hless, hmore⟩
    · rw [turn_of_cons hwaiting]
      exact (hc.rest hwaiting).weigh g merit span taken

/-- A selection takes the turns of the contest. -/
theorem Truncates.choose (hg : g.Coherent) (h : Truncates g.size c b s) (hc : c.Orderly)
    (hsteps : b.queue.capacity = steps) (hplaces : steps ≤ places)
    (hproper : (∀ t ∈ BeamSelector.turnsFrom g merit span steps places (b, s),
        t.Proper g merit span) ∨
      ∀ n < steps, (after g merit span n c).Proper g merit span) :
    (∀ nt, (BeamSelector.choose g merit span steps places (b, s)).1.chosen.entryOf? nt =
        (after g merit span steps c).chosen nt) ∧
      (BeamSelector.turnsFrom g merit span steps places (b, s)).map (·.taken) =
        pops g merit span steps c ∧
      ∀ n < steps, (after g merit span n c).Proper g merit span := by
  induction steps generalizing places b c s with
  | zero =>
    simp only [BeamSelector.choose]
    exact ⟨h.chosen, rfl, fun n hn => absurd hn (Nat.not_lt_zero n)⟩
  | succ steps ih =>
    obtain ⟨places, rfl⟩ := Nat.exists_eq_add_of_le' (Nat.le_trans (Nat.le_add_left 1 _) hplaces)
    rcases h.choose_succ hg hc (by omega) merit span steps places with
      ⟨hwaiting, hchoose, hturns⟩ |
      ⟨t, rest, places', b', s', hwaiting, hiff, hnext, hc', hchoose, hturns⟩
    · rw [hchoose, hturns, pops_of_nil hwaiting]
      refine ⟨fun nt => ?_, rfl, fun n _ => ?_⟩
      · rw [after_of_nil hwaiting]
        exact h.chosen nt
      · rw [after_of_nil hwaiting]
        exact proper_of_nil hwaiting
    · rw [hturns] at hproper
      have hthis : t.Proper g merit span :=
        hproper.elim (fun hproper => hproper t List.mem_cons_self)
          fun hproper => hiff.2 (hproper 0 (Nat.succ_pos steps))
      obtain ⟨htruncates, hcapacity, hmore⟩ := hnext hthis
      obtain ⟨hchosen, hpops, hproper'⟩ := ih htruncates hc' (by omega) (by omega)
        (hproper.imp (fun hproper t ht => hproper t (List.mem_cons_of_mem _ ht))
          fun hproper n hn => hproper (n + 1) (Nat.succ_lt_succ hn))
      rw [hchoose, hturns, pops_of_cons hwaiting, after_succ, List.map_cons, hpops]
      refine ⟨hchosen, rfl, fun n hn => ?_⟩
      cases n with
      | zero => exact hiff.1 hthis
      | succ n => exact hproper' n (Nat.lt_of_succ_lt_succ hn)

/-! ## Filling a cell -/

theorem toList_foldl_enqueue {rank : UInt16 → Score → Score} {nts : List UInt16}
    {xs : List (UInt16 × Score)} (hsound : b.queue.Sound) (hranked : BeamQueue.Ranked xs)
    (hlist : b.queue.toList = xs.take b.queue.capacity)
    (hnumber : ∀ nt ∈ nts, (rank nt (s.insideOf nt)).isNaN = false) :
    (nts.foldl (BeamSelector.enqueue rank s) b).queue.toList =
      (nts.foldl (fun xs nt => BeamQueue.place (nt, rank nt (s.insideOf nt)) xs) xs).take
        b.queue.capacity := by
  induction nts generalizing b xs with
  | nil => exact hlist
  | cons nt nts ih =>
    have hnt := hnumber nt List.mem_cons_self
    have hextends := hsound.insert_extends nt (rank nt (s.insideOf nt))
    have hranked' : BeamQueue.Ranked b.queue.toList := by
      rw [hlist]
      exact hranked.of_sublist (List.take_sublist _ _)
    have hstep := hsound.toList_insert nt hranked' hnt
    rw [hlist, BeamQueue.take_place, ← hextends.capacity] at hstep
    rw [List.foldl_cons, List.foldl_cons, ← hextends.capacity]
    exact ih (b := BeamSelector.enqueue rank s b nt) hextends.sound
      (BeamQueue.ranked_place hranked hnt) hstep fun m hm => hnumber m (List.mem_cons_of_mem _ hm)

theorem admitted_foldl_enqueue (rank : UInt16 → Score → Score) (nts : List UInt16) :
    (nts.foldl (BeamSelector.enqueue rank s) b).admitted = b.admitted := by
  induction nts generalizing b with
  | nil => rfl
  | cons nt nts ih => exact ih

/-- A selection begins as the contest does. -/
theorem truncates_prepare (width : Nat) (hs : s.Valid count) (hb : b.Idle count)
    (hfresh : b.Fresh)
    (hnumber : ∀ nt e, s.entryOf? nt = some e → (merit.rank span nt e.inside).isNaN = false) :
    Truncates count (enter merit span s) (BeamSelector.prepare merit span width 0 s.sort b)
        s.sort ∧
      (BeamSelector.prepare merit span width 0 s.sort b).queue.capacity = width := by
  have hbusy := (BeamSelector.prepare_keeps merit span width 0 hs.sort hb).1
  have hchosen := BeamSelector.chosen_prepare merit span width 0 s.sort b
  have hsound := BeamQueue.sound_clear b.queue width
  rw [BeamSelector.prepare_unheld] at hbusy hchosen ⊢
  have hlisted (nt : UInt16) (hnt : nt ∈ s.sort.populated.toList) :
      (merit.rank span nt (s.sort.insideOf nt)).isNaN = false := by
    obtain ⟨e, he⟩ := (hs.sort.mem_iff nt).1 hnt
    rw [← Scratch.inside_of_entryOf? he]
    exact hnumber nt e he
  have hretains := BeamSelector.retains_enqueue (s := s.sort)
    (b := { b with queue := b.queue.clear width }) hsound (merit.rank span)
    s.sort.populated.toList
  have hwaiting := toList_foldl_enqueue (s := s.sort)
    (b := { b with queue := b.queue.clear width }) hsound BeamQueue.ranked_nil
    List.take_nil.symm hlisted
  have hqueued (nt : UInt16) := BeamSelector.queuedAt_foldl_enqueue (s := s.sort)
    (b := { b with queue := b.queue.clear width }) (merit.rank span)
    (fun nt hnt => hs.sort.lt hnt) hb.queued_size nt
  have hqueued' (nt : UInt16) : (s.sort.populated.toList.foldl
      (BeamSelector.enqueue (merit.rank span) s.sort)
      { b with queue := b.queue.clear width }).queuedAt nt = (enter merit span s).queued nt := by
    rw [hqueued]
    exact if_congr Iff.rfl rfl (hfresh nt)
  have hadmitted := admitted_foldl_enqueue (s := s.sort)
    (b := { b with queue := b.queue.clear width }) (merit.rank span) s.sort.populated.toList
  refine ⟨⟨hbusy, hretains.sound, ?_, fun nt => ?_, fun nt => ?_, fun x _ => ⟨hqueued' x.1, rfl⟩,
    fun nt => Or.inl (hqueued' nt)⟩, hretains.capacity⟩
  · rw [hwaiting, hretains.capacity]
    rfl
  · unfold BeamSelector.admittedAt
    rw [hadmitted]
    exact hb.admitted nt
  · rw [hchosen]
    exact hb.chosen.entryOf?_of_empty hb.empty nt

/-- A cell is filled with what the contest lets in in as many turns as the cell has places. -/
theorem get?_select (hg : g.Coherent) (width : Nat) (cell : Cell) (hs : s.Valid g.size)
    (hb : b.Idle g.size) (hfresh : b.Fresh)
    (hnumber : ∀ nt e, s.entryOf? nt = some e → (merit.rank span nt e.inside).isNaN = false)
    (hproper : (∀ t ∈ BeamSelector.turns g merit span width 0 s b, t.Proper g merit span) ∨
      ∀ n < width, (after g merit span n (enter merit span s)).Proper g merit span) :
    (∀ nt, (b.select g merit span width 0 s cell).1.get? nt =
        (after g merit span width (enter merit span s)).chosen nt) ∧
      (BeamSelector.turns g merit span width 0 s b).map (·.taken) =
        pops g merit span width (enter merit span s) ∧
      ∀ n < width, (after g merit span n (enter merit span s)).Proper g merit span := by
  obtain ⟨htruncates, hcapacity⟩ :=
    truncates_prepare width hs hb hfresh hnumber
  have hbusy := (BeamSelector.choose_keeps hg merit span
    (BeamSelector.prepare merit span width 0 s.sort b).queue.capacity width htruncates.busy).1
  unfold BeamSelector.turns at hproper ⊢
  dsimp only at hproper ⊢
  rw [hcapacity] at hproper
  obtain ⟨hchosen, hpops, hproper'⟩ := htruncates.choose hg (orderly_enter hs hnumber) hcapacity
    (Nat.le_refl width) hproper
  rw [hcapacity] at hbusy ⊢
  refine ⟨fun nt => ?_, hpops, hproper'⟩
  rw [BeamSelector.select_eq]
  dsimp only
  rw [hcapacity, hbusy.chosen.get?_finalizeInto]
  exact hchosen nt

end Contest
end ChartParsing
