import ChartParsing.Proofs.Beam.Turns
import Mathlib.Logic.Function.Iterate

/-!
# Contests

A contest is a selection with places for all: no entry is refused, and none is evicted. Its
entries wait in a ranking, each non-terminal once, and it takes as many turns as are wanted.
-/

namespace ChartParsing

open BeamSelector (unaryEntry)

structure Contest where
  waiting : List (UInt16 × Score)
  queued : UInt16 → Score
  admitted : UInt16 → Score
  chosen : UInt16 → Option ChartEntry
  table : UInt16 → Option ChartEntry

namespace Contest

/-- Lets an entry in. -/
def accept (c : Contest) (e : ChartEntry) (rank : Score) : Contest :=
  { c with
    chosen := Function.update c.chosen e.nt (some e)
    admitted := Function.update c.admitted e.nt rank }

/-- Queues an entry in place of the one its non-terminal had. -/
def raise (c : Contest) (e : ChartEntry) (rank : Score) : Contest :=
  { c with
    waiting := (BeamQueue.rerank e.nt rank c.waiting).2
    queued := Function.update c.queued e.nt rank
    table := if e.inside = Score.absent then c.table else Function.update c.table e.nt (some e) }

/-- Offers a unary parent of an entry just let in. -/
def offer (merit : Merit) (span : Span) (child : ChartEntry) (c : Contest)
    (edge : UInt16 × Score) : Contest :=
  let e := unaryEntry span child edge
  let rank := merit.grade span e
  if c.queued edge.1 < rank ∧ c.admitted edge.1 < rank then c.raise e rank else c

/-- The entry that is let in when one is taken out. -/
def admits? (c : Contest) (nt : UInt16) : Option ChartEntry :=
  if c.admitted nt != Score.absent then none else c.table nt

/-- What becomes of an entry taken out. -/
def weigh (g : Grammar) (merit : Merit) (span : Span) (taken : UInt16 × Score) (c : Contest) :
    Contest :=
  match c.admits? taken.1 with
  | some e => (g.unaryByChild.column taken.1.toUInt32).foldl (offer merit span e)
      (c.accept e taken.2)
  | none =>
    match c.table taken.1 with
    | some e => if c.admitted taken.1 < taken.2 then c.accept e taken.2 else c
    | none => c

/-- Takes out the best entry. -/
def turn (g : Grammar) (merit : Merit) (span : Span) (c : Contest) : Contest :=
  match c.waiting with
  | [] => c
  | taken :: rest => weigh g merit span taken { c with waiting := rest }

/-- The contest after so many turns. -/
def after (g : Grammar) (merit : Merit) (span : Span) (n : Nat) (c : Contest) : Contest :=
  (turn g merit span)^[n] c

/-- The entries taken out in so many turns. -/
def pops (g : Grammar) (merit : Merit) (span : Span) : Nat → Contest → List (UInt16 × Score)
  | 0, _ => []
  | n + 1, c =>
    match c.waiting with
    | [] => []
    | taken :: _ => taken :: pops g merit span n (turn g merit span c)

/-- The contest of the entries of a table. -/
def enter (merit : Merit) (span : Span) (s : Scratch) : Contest where
  waiting := s.sorted.foldl (fun xs nt =>
    BeamQueue.place (nt, merit.rank span nt (s.insideOf nt)) xs) []
  queued nt := if nt ∈ s.sorted then merit.rank span nt (s.insideOf nt) else Score.absent
  admitted _ := Score.absent
  chosen _ := none
  table := s.entryOf?

/-- No parent that is offered next is ranked above what is absent with the score of what is
absent. -/
def Proper (g : Grammar) (merit : Merit) (span : Span) (c : Contest) : Prop :=
  ∀ taken ∈ c.waiting.head?, ∀ e parent rule, c.admits? taken.1 = some e →
    g.HasUnary parent e.nt rule → rule + e.inside = Score.absent → merit.GroundedAt span parent

variable {g : Grammar} {merit : Merit} {span : Span} {c : Contest} {s : Scratch}
  {b : BeamSelector} {count n : Nat}

theorem after_succ (n : Nat) (c : Contest) :
    after g merit span (n + 1) c = after g merit span n (turn g merit span c) := rfl

theorem after_add (m n : Nat) (c : Contest) :
    after g merit span (m + n) c = after g merit span n (after g merit span m c) := by
  unfold after
  rw [Nat.add_comm, Function.iterate_add_apply]

theorem turn_of_nil (h : c.waiting = []) : turn g merit span c = c := by
  unfold turn
  rw [h]

theorem turn_of_cons {taken : UInt16 × Score} {rest : List (UInt16 × Score)}
    (h : c.waiting = taken :: rest) :
    turn g merit span c = weigh g merit span taken { c with waiting := rest } := by
  unfold turn
  rw [h]

theorem pops_of_nil (h : c.waiting = []) (n : Nat) : pops g merit span n c = [] := by
  cases n with
  | zero => rfl
  | succ n => rw [pops, h]

theorem pops_of_cons {taken : UInt16 × Score} {rest : List (UInt16 × Score)}
    (h : c.waiting = taken :: rest) (n : Nat) : pops g merit span (n + 1) c =
      taken :: pops g merit span n (turn g merit span c) := by
  rw [pops, h]

theorem after_of_nil (h : c.waiting = []) (n : Nat) : after g merit span n c = c := by
  induction n with
  | zero => rfl
  | succ n ih => rw [after_succ, turn_of_nil h, ih]

theorem queued_raise (c : Contest) (e : ChartEntry) (rank : Score) (nt : UInt16) :
    (c.raise e rank).queued nt = if nt = e.nt then rank else c.queued nt :=
  Function.update_apply ..

theorem table_raise (c : Contest) {e : ChartEntry} (hne : e.inside ≠ Score.absent) (rank : Score)
    (nt : UInt16) :
    (c.raise e rank).table nt = if nt = e.nt then some e else c.table nt := by
  unfold raise
  dsimp only
  rw [if_neg hne, Function.update_apply]

/-- What waits is ranked, each non-terminal once and with the merit it was queued with. -/
structure Orderly (c : Contest) : Prop where
  ranked : BeamQueue.Ranked c.waiting
  nodup : (c.waiting.map Prod.fst).Nodup
  queued : ∀ x ∈ c.waiting, c.queued x.1 = x.2

theorem Orderly.rerank_perm (h : c.Orderly) {nt : UInt16} {rank : Score}
    (habove : c.queued nt < rank) : (BeamQueue.rerank nt rank c.waiting).2.Perm
      ((nt, rank) :: c.waiting.filter (·.1 ≠ nt)) := by
  refine BeamQueue.rerank_perm h.nodup fun x hx hnt => ?_
  rw [← h.queued x hx, hnt]
  exact habove

theorem Orderly.mem_raise (h : c.Orderly) {e : ChartEntry} {rank : Score}
    (habove : c.queued e.nt < rank) {x : UInt16 × Score} :
    x ∈ (c.raise e rank).waiting ↔ x = (e.nt, rank) ∨ x ∈ c.waiting ∧ x.1 ≠ e.nt := by
  unfold raise
  dsimp only
  rw [(h.rerank_perm habove).mem_iff, List.mem_cons, List.mem_filter, decide_eq_true_iff]

theorem Orderly.raise (h : c.Orderly) {e : ChartEntry} {rank : Score}
    (habove : c.queued e.nt < rank) : (c.raise e rank).Orderly := by
  have hnumber : rank.isNaN = false := (Score.lt_iff.1 habove).2.1
  refine ⟨BeamQueue.ranked_rerank h.ranked hnumber, ?_, fun x hx => ?_⟩
  · have hperm := (h.rerank_perm habove).map Prod.fst
    refine hperm.nodup_iff.2 (List.nodup_cons.2 ⟨?_, ?_⟩)
    · simp
    · exact h.nodup.sublist (List.filter_sublist.map _)
  · unfold Contest.raise
    dsimp only
    rcases (h.mem_raise habove).1 hx with rfl | ⟨hx, hne⟩
    · rw [Function.update_self]
    · rw [Function.update_of_ne hne, h.queued x hx]

theorem Orderly.accept (h : c.Orderly) (e : ChartEntry) (rank : Score) :
    (c.accept e rank).Orderly := ⟨h.ranked, h.nodup, h.queued⟩

theorem Orderly.offer (h : c.Orderly) (merit : Merit) (span : Span) (child : ChartEntry)
    (edge : UInt16 × Score) : (c.offer merit span child edge).Orderly := by
  unfold Contest.offer
  dsimp only
  split_ifs with habove
  · exact h.raise habove.1
  · exact h

theorem Orderly.foldl_offer (h : c.Orderly) (merit : Merit) (span : Span) (child : ChartEntry)
    (edges : List (UInt16 × Score)) :
    (edges.foldl (Contest.offer merit span child) c).Orderly := by
  induction edges generalizing c with
  | nil => exact h
  | cons edge edges ih => exact ih (h.offer merit span child edge)

theorem Orderly.weigh (h : c.Orderly) (g : Grammar) (merit : Merit) (span : Span)
    (taken : UInt16 × Score) : (c.weigh g merit span taken).Orderly := by
  unfold Contest.weigh
  split
  · exact (h.accept _ _).foldl_offer merit span _ _
  · split
    · split_ifs
      · exact h.accept _ _
      · exact h
    · exact h

theorem proper_of_nil (h : c.waiting = []) : c.Proper g merit span := by
  intro taken htaken
  rw [h] at htaken
  cases htaken

theorem proper_iff_of_cons {taken : UInt16 × Score} {rest : List (UInt16 × Score)}
    (h : c.waiting = taken :: rest) : c.Proper g merit span ↔
      ∀ e parent rule, c.admits? taken.1 = some e → g.HasUnary parent e.nt rule →
        rule + e.inside = Score.absent → merit.GroundedAt span parent := by
  unfold Proper
  rw [h]
  simp

theorem Orderly.rest (h : c.Orderly) {taken : UInt16 × Score} {rest : List (UInt16 × Score)}
    (hwaiting : c.waiting = taken :: rest) : { c with waiting := rest }.Orderly := by
  obtain ⟨hranked, hnodup, hqueued⟩ := h
  rw [hwaiting] at hranked hnodup hqueued
  exact ⟨hranked.of_sublist (List.sublist_cons_self _ _), (List.nodup_cons.1 hnodup).2,
    fun x hx => hqueued x (List.mem_cons_of_mem _ hx)⟩

/-! ## The start -/

/-- Entries that are put in a ranking one after the other. -/
theorem foldl_place_perm (f : UInt16 → Score) (nts : List UInt16) (xs : List (UInt16 × Score)) :
    (nts.foldl (fun xs nt => BeamQueue.place (nt, f nt) xs) xs).Perm
      (nts.map (fun nt => (nt, f nt)) ++ xs) := by
  induction nts generalizing xs with
  | nil => exact .refl _
  | cons nt nts ih =>
    refine (ih _).trans ?_
    rw [List.map_cons, List.cons_append]
    exact (List.Perm.append_left _ BeamQueue.place_perm).trans List.perm_middle

theorem ranked_foldl_place {f : UInt16 → Score} {nts : List UInt16}
    {xs : List (UInt16 × Score)} (hxs : BeamQueue.Ranked xs)
    (hnumber : ∀ nt ∈ nts, (f nt).isNaN = false) :
    BeamQueue.Ranked (nts.foldl (fun xs nt => BeamQueue.place (nt, f nt) xs) xs) := by
  induction nts generalizing xs with
  | nil => exact hxs
  | cons nt nts ih =>
    exact ih (BeamQueue.ranked_place hxs (hnumber nt List.mem_cons_self))
      fun m hm => hnumber m (List.mem_cons_of_mem _ hm)

theorem waiting_enter_perm (merit : Merit) (span : Span) (s : Scratch) :
    (enter merit span s).waiting.Perm
      (s.sorted.map fun nt => (nt, merit.rank span nt (s.insideOf nt))) := by
  have hperm := foldl_place_perm (fun nt => merit.rank span nt (s.insideOf nt)) s.sorted []
  rwa [List.append_nil] at hperm

theorem mem_enter (hs : s.Valid count) {x : UInt16 × Score} :
    x ∈ (enter merit span s).waiting ↔
      ∃ e, s.entryOf? x.1 = some e ∧ merit.rank span x.1 e.inside = x.2 := by
  rw [(waiting_enter_perm merit span s).mem_iff, List.mem_map]
  constructor
  · rintro ⟨nt, hnt, rfl⟩
    obtain ⟨e, he⟩ := (hs.mem_iff nt).1 (s.sorted_perm.mem_iff.1 hnt)
    exact ⟨e, he, by rw [Scratch.inside_of_entryOf? he]⟩
  · rintro ⟨e, he, hrank⟩
    refine ⟨x.1, s.sorted_perm.mem_iff.2 ((hs.mem_iff x.1).2 ⟨e, he⟩), Prod.ext rfl ?_⟩
    rw [← Scratch.inside_of_entryOf? he]
    exact hrank

theorem orderly_enter (hs : s.Valid count)
    (hnumber : ∀ nt e, s.entryOf? nt = some e → (merit.rank span nt e.inside).isNaN = false) :
    (enter merit span s).Orderly := by
  refine ⟨ranked_foldl_place BeamQueue.ranked_nil fun nt hnt => ?_, ?_, fun x hx => ?_⟩
  · obtain ⟨e, he⟩ := (hs.mem_iff nt).1 (s.sorted_perm.mem_iff.1 hnt)
    rw [← Scratch.inside_of_entryOf? he]
    exact hnumber nt e he
  · have hperm := (waiting_enter_perm merit span s).map Prod.fst
    rw [List.map_map] at hperm
    refine hperm.nodup_iff.2 (List.Nodup.map (fun _ _ h => h) ?_)
    exact s.sorted_perm.nodup_iff.2 hs.nodup
  · rw [(waiting_enter_perm merit span s).mem_iff, List.mem_map] at hx
    obtain ⟨nt, hnt, rfl⟩ := hx
    exact if_pos hnt

end Contest
end ChartParsing
