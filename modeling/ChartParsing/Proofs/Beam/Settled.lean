import ChartParsing.Proofs.Beam.Contest

/-!
# Contests by score

If entries are ranked by their scores and no unary rule raises a score, a contest lets each
non-terminal in once, best first. Nothing that waits is above what was let in, so no parent is
offered with a better edge after it was let in, and what was let in stays.
-/

namespace ChartParsing

open BeamSelector (unaryEntry)

theorem Merit.grade_inside (span : Span) (e : ChartEntry) :
    Merit.inside.grade span e = e.inside := rfl

namespace Contest

/-- What waits has an entry with that score, was not let in and is not above what was. -/
structure Settled (c : Contest) : Prop where
  orderly : c.Orderly
  table : ∀ nt e, c.table nt = some e → e.nt = nt ∧ e.inside ≠ Score.absent
  entry : ∀ x ∈ c.waiting, ∃ e, c.table x.1 = some e ∧ e.inside = x.2
  unchosen : ∀ x ∈ c.waiting, c.chosen x.1 = none
  le : ∀ x ∈ c.waiting, ∀ nt e, c.chosen nt = some e → x.2 ≤ e.inside
  admitted : ∀ nt, c.chosen nt = none → c.admitted nt = Score.absent
  chosen : ∀ nt e, c.chosen nt = some e → c.admitted nt = e.inside ∧ c.queued nt = e.inside

variable {g : Grammar} {span : Span} {c : Contest} {s : Scratch} {count : Nat}

theorem settled_enter (span : Span) (hs : s.Valid count)
    (hnumber : ∀ nt e, s.entryOf? nt = some e → e.inside.isNaN = false) :
    (enter .inside span s).Settled where
  orderly := orderly_enter hs fun nt e he => by
    rw [Merit.rank_inside]
    exact hnumber nt e he
  table _ _ he := ⟨Scratch.nt_of_entryOf? he, Scratch.present_of_entryOf? he⟩
  entry x hx := by
    obtain ⟨e, he, hrank⟩ := (mem_enter hs).1 hx
    rw [Merit.rank_inside] at hrank
    exact ⟨e, he, hrank⟩
  unchosen _ _ := rfl
  le _ _ _ _ he := nomatch he
  admitted _ _ := rfl
  chosen _ _ he := nomatch he

/-! ## A turn -/

theorem Settled.accept (h : c.Settled) {taken : UInt16 × Score} {rest : List (UInt16 × Score)}
    (hwaiting : c.waiting = taken :: rest) {e : ChartEntry} (he : c.table taken.1 = some e)
    (hrank : e.inside = taken.2) :
    ({ c with waiting := rest }.accept e taken.2).Settled ∧
      ∀ nt d, ({ c with waiting := rest }.accept e taken.2).chosen nt = some d →
        e.inside ≤ d.inside := by
  obtain ⟨hnt, hne⟩ := h.table _ e he
  have hmem {x : UInt16 × Score} (hx : x ∈ rest) : x ∈ c.waiting := by
    rw [hwaiting]
    exact List.mem_cons_of_mem _ hx
  have hself : taken ∈ c.waiting := by
    rw [hwaiting]
    exact List.mem_cons_self
  have hother {x : UInt16 × Score} (hx : x ∈ rest) : x.1 ≠ e.nt := by
    have hnodup := h.orderly.nodup
    rw [hwaiting, List.map_cons, List.nodup_cons] at hnodup
    rintro heq
    refine hnodup.1 ?_
    rw [← hnt, ← heq]
    exact List.mem_map_of_mem hx
  have hranked := h.orderly.ranked
  rw [hwaiting] at hranked
  have hchosen (nt : UInt16) : ({ c with waiting := rest }.accept e taken.2).chosen nt =
      if nt = e.nt then some e else c.chosen nt := Function.update_apply ..
  have hadmitted (nt : UInt16) : ({ c with waiting := rest }.accept e taken.2).admitted nt =
      if nt = e.nt then taken.2 else c.admitted nt := Function.update_apply ..
  refine ⟨⟨(h.orderly.rest hwaiting).accept e _, h.table, fun x hx => h.entry x (hmem hx),
    fun x hx => ?_, fun x hx nt d hd => ?_, fun nt hnt' => ?_, fun nt d hd => ?_⟩,
    fun nt d hd => ?_⟩
  · rw [hchosen, if_neg (hother hx)]
    exact h.unchosen x (hmem hx)
  · rw [hchosen] at hd
    split_ifs at hd with heq
    · cases hd
      rw [hrank]
      exact (List.pairwise_cons.1 hranked.le).1 x hx
    · exact h.le x (hmem hx) nt d hd
  · rw [hchosen] at hnt'
    rw [hadmitted]
    split_ifs at hnt' ⊢ with heq
    exact h.admitted nt hnt'
  · rw [hchosen] at hd
    rw [hadmitted]
    split_ifs at hd ⊢ with heq
    · cases hd
      rw [heq, hnt]
      exact ⟨hrank.symm, (h.orderly.queued taken hself).trans hrank.symm⟩
    · exact h.chosen nt d hd
  · rw [hchosen] at hd
    split_ifs at hd with heq
    · cases hd
      refine Score.le_self ?_
      rw [hrank]
      exact h.orderly.ranked.isNaN taken hself
    · rw [hrank]
      exact h.le taken hself nt d hd

theorem Settled.raise (h : c.Settled) {e : ChartEntry} (habove : c.queued e.nt < e.inside)
    (hunchosen : c.chosen e.nt = none)
    (hle : ∀ nt d, c.chosen nt = some d → e.inside ≤ d.inside) :
    (c.raise e e.inside).Settled := by
  have hne : e.inside ≠ Score.absent := Score.ne_absent_of_lt habove
  have htable := table_raise c hne e.inside
  have hmem {x : UInt16 × Score} := h.orderly.mem_raise habove (x := x)
  refine ⟨h.orderly.raise habove, fun nt d hd => ?_, fun x hx => ?_, fun x hx => ?_,
    fun x hx nt d hd => ?_, h.admitted, fun nt d hd => ?_⟩
  · rw [htable] at hd
    split_ifs at hd with heq
    · cases hd
      exact ⟨heq.symm, hne⟩
    · exact h.table nt d hd
  · rw [htable]
    rcases hmem.1 hx with rfl | ⟨hx, hother⟩
    · exact ⟨e, if_pos rfl, rfl⟩
    · rw [if_neg hother]
      exact h.entry x hx
  · rcases hmem.1 hx with rfl | ⟨hx, -⟩
    · exact hunchosen
    · exact h.unchosen x hx
  · rcases hmem.1 hx with rfl | ⟨hx, -⟩
    · exact hle nt d hd
    · exact h.le x hx nt d hd
  · change c.chosen nt = some d at hd
    have hother : nt ≠ e.nt := by
      rintro rfl
      rw [hunchosen] at hd
      cases hd
    rw [queued_raise, if_neg hother]
    exact h.chosen nt d hd

/-- A parent is queued only if it was not let in: its edge is no better than its child, and the
child no better than what was let in. -/
theorem Settled.offer (h : c.Settled) (span : Span) {child : ChartEntry}
    (hleast : ∀ nt d, c.chosen nt = some d → child.inside ≤ d.inside) {edge : UInt16 × Score}
    (hrule : edge.2 ≤ 0) : (c.offer .inside span child edge).Settled := by
  unfold Contest.offer
  dsimp only
  rw [Merit.grade_inside]
  split_ifs with habove
  · have hle : (unaryEntry span child edge).inside ≤ child.inside :=
      Score.add_le_right hrule (Score.lt_iff.1 habove.1).2.1
    refine h.raise habove.1 ?_ fun nt d hd => Score.le_trans hle (hleast nt d hd)
    rw [Option.eq_none_iff_forall_not_mem]
    intro d hd
    have hlt := habove.2
    rw [(h.chosen edge.1 d hd).1] at hlt
    exact Score.not_lt_of_le (Score.le_trans hle (hleast edge.1 d hd)) hlt
  · exact h

theorem chosen_offer (merit : Merit) (span : Span) (child : ChartEntry) (c : Contest)
    (edge : UInt16 × Score) : (c.offer merit span child edge).chosen = c.chosen := by
  unfold Contest.offer
  dsimp only
  split_ifs <;> rfl

theorem chosen_foldl_offer (merit : Merit) (span : Span) (child : ChartEntry) (c : Contest)
    (edges : List (UInt16 × Score)) :
    (edges.foldl (Contest.offer merit span child) c).chosen = c.chosen := by
  induction edges generalizing c with
  | nil => rfl
  | cons edge edges ih => rw [List.foldl_cons, ih, chosen_offer]

theorem Settled.foldl_offer (h : c.Settled) {child : ChartEntry}
    (hleast : ∀ nt d, c.chosen nt = some d → child.inside ≤ d.inside)
    {edges : List (UInt16 × Score)} (hrules : ∀ edge ∈ edges, edge.2 ≤ 0) :
    (edges.foldl (Contest.offer .inside span child) c).Settled := by
  induction edges generalizing c with
  | nil => exact h
  | cons edge edges ih =>
    refine ih (h.offer span hleast (hrules edge List.mem_cons_self)) ?_
      fun e he => hrules e (List.mem_cons_of_mem _ he)
    rwa [chosen_offer]

/-- Each turn lets the best entry in that waits. -/
theorem Settled.turn_eq (h : c.Settled) {taken : UInt16 × Score}
    {rest : List (UInt16 × Score)} (hwaiting : c.waiting = taken :: rest) {e : ChartEntry}
    (he : c.table taken.1 = some e) :
    turn g .inside span c = (g.unaryByChild.column taken.1.toUInt32).foldl
      (Contest.offer .inside span e) ({ c with waiting := rest }.accept e taken.2) := by
  have hself : taken ∈ c.waiting := by
    rw [hwaiting]
    exact List.mem_cons_self
  have hadmits : ({ c with waiting := rest } : Contest).admits? taken.1 = some e := by
    unfold admits?
    rw [h.admitted _ (h.unchosen taken hself), if_neg (by rw [Scratch.bne_absent]; simp)]
    exact he
  rw [turn_of_cons hwaiting, Contest.weigh, hadmits]

theorem Settled.turn (hg : g.Coherent) (hlowering : g.Lowering) (span : Span) (h : c.Settled)
    {taken : UInt16 × Score} {rest : List (UInt16 × Score)}
    (hwaiting : c.waiting = taken :: rest) : (turn g .inside span c).Settled ∧
      ∃ e, c.table taken.1 = some e ∧ e.nt = taken.1 ∧
        ∀ nt, (Contest.turn g .inside span c).chosen nt =
          if nt = taken.1 then some e else c.chosen nt := by
  have hself : taken ∈ c.waiting := by
    rw [hwaiting]
    exact List.mem_cons_self
  obtain ⟨e, he, hrank⟩ := h.entry taken hself
  have hnt := (h.table _ e he).1
  obtain ⟨haccept, hleast⟩ := h.accept hwaiting he hrank
  rw [h.turn_eq hwaiting he]
  refine ⟨haccept.foldl_offer hleast fun edge hedge => hlowering _ _ _ (hg.unary.1 hedge),
    e, he, hnt, fun nt => ?_⟩
  rw [chosen_foldl_offer, ← hnt]
  exact Function.update_apply ..

/-! ## Turns one after another -/

theorem Settled.after (hg : g.Coherent) (hlowering : g.Lowering) (h : c.Settled) (n : Nat) :
    (after g .inside span n c).Settled := by
  induction n generalizing c with
  | zero => exact h
  | succ n ih =>
    rw [after_succ]
    cases hwaiting : c.waiting with
    | nil =>
      rw [turn_of_nil hwaiting]
      exact ih h
    | cons taken rest => exact ih (h.turn hg hlowering span hwaiting).1

/-- What was let in stays as it is. -/
theorem Settled.kept (hg : g.Coherent) (hlowering : g.Lowering) (h : c.Settled) {nt : UInt16}
    {e : ChartEntry} (he : c.chosen nt = some e) (n : Nat) :
    (Contest.after g .inside span n c).chosen nt = some e := by
  induction n generalizing c with
  | zero => exact he
  | succ n ih =>
    rw [after_succ]
    cases hwaiting : c.waiting with
    | nil =>
      rw [turn_of_nil hwaiting]
      exact ih h he
    | cons taken rest =>
      obtain ⟨hnext, d, -, -, hchosen⟩ := h.turn hg hlowering span hwaiting
      refine ih hnext ?_
      rw [hchosen, if_neg]
      · exact he
      · rintro rfl
        have hself : taken ∈ c.waiting := by
          rw [hwaiting]
          exact List.mem_cons_self
        rw [h.unchosen taken hself] at he
        cases he

end Contest
end ChartParsing
