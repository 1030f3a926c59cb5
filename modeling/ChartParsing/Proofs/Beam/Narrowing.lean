import ChartParsing.Proofs.Beam.Limited
import ChartParsing.Proofs.Beam.Settled
import ChartParsing.Proofs.Grammar.Making

/-!
# Narrower cells

Selections for cells of different widths take turns of one contest, the narrower one fewer of
them. So a narrower cell has no non-terminal that a wider one has not.
-/

namespace ChartParsing

namespace Contest

variable {g : Grammar} {merit : Merit} {span : Span} {c : Contest} {s : Scratch} {count : Nat}

/-! ## More turns -/

theorem pops_take {m n : Nat} (hmn : m ≤ n) (c : Contest) :
    pops g merit span m c = (pops g merit span n c).take m := by
  induction m generalizing n c with
  | zero => rfl
  | succ m ih =>
    obtain ⟨n, rfl⟩ := Nat.exists_eq_add_of_le' (Nat.le_trans (Nat.le_add_left 1 m) hmn)
    cases hwaiting : c.waiting with
    | nil =>
      rw [pops_of_nil hwaiting, pops_of_nil hwaiting]
      rfl
    | cons taken rest =>
      rw [pops_of_cons hwaiting, pops_of_cons hwaiting, List.take_succ_cons,
        ih (Nat.le_of_succ_le_succ hmn)]

theorem isSome_accept (c : Contest) (e : ChartEntry) (rank : Score) {nt : UInt16}
    (h : (c.chosen nt).isSome) : ((c.accept e rank).chosen nt).isSome := by
  unfold accept
  dsimp only
  rw [Function.update_apply]
  split_ifs
  · rfl
  · exact h

/-- What is let in is not taken out again. -/
theorem isSome_turn (g : Grammar) (merit : Merit) (span : Span) {nt : UInt16}
    (h : (c.chosen nt).isSome) : ((turn g merit span c).chosen nt).isSome := by
  cases hwaiting : c.waiting with
  | nil => rwa [turn_of_nil hwaiting]
  | cons taken rest =>
    rw [turn_of_cons hwaiting]
    unfold weigh
    split
    · rw [chosen_foldl_offer]
      exact isSome_accept { c with waiting := rest } _ _ h
    · split
      · split_ifs
        · exact isSome_accept { c with waiting := rest } _ _ h
        · exact h
      · exact h

theorem isSome_after {m n : Nat} (hmn : m ≤ n) {nt : UInt16}
    (h : ((after g merit span m c).chosen nt).isSome) :
    ((after g merit span n c).chosen nt).isSome := by
  induction n, hmn using Nat.le_induction with
  | base => exact h
  | succ n hmn ih =>
    rw [after_add n 1]
    exact isSome_turn g merit span ih

/-! ## Contests without parents -/

/-- Where none has a parent, the entries that wait are let in one after the other. -/
theorem chosen_after_of_flat (hc : c.Orderly)
    (hwaiting : ∀ x ∈ c.waiting, c.admitted x.1 = Score.absent ∧
      (∃ e, c.table x.1 = some e ∧ e.nt = x.1) ∧ g.unaryByChild.column x.1.toUInt32 = [])
    (n : Nat) (nt : UInt16) : (after g merit span n c).chosen nt =
      if nt ∈ (c.waiting.take n).map Prod.fst then c.table nt else c.chosen nt := by
  induction n generalizing c with
  | zero => rfl
  | succ n ih =>
    cases hw : c.waiting with
    | nil => rw [after_of_nil hw]; rfl
    | cons taken rest =>
      rw [hw] at hwaiting
      obtain ⟨hadmitted, ⟨e, he, hnt⟩, hcolumn⟩ := hwaiting taken List.mem_cons_self
      have hturn : turn g merit span c = { c with waiting := rest }.accept e taken.2 := by
        have hadmits : ({ c with waiting := rest } : Contest).admits? taken.1 = some e := by
          unfold admits?
          rw [hadmitted, if_neg (by rw [Scratch.bne_absent]; simp)]
          exact he
        rw [turn_of_cons hw, weigh, hadmits]
        dsimp only
        rw [hcolumn]
        rfl
      have hnodup := hc.nodup
      rw [hw, List.map_cons, List.nodup_cons] at hnodup
      rw [after_succ, hturn, ih ((hc.rest hw).accept e taken.2) fun x hx => ?_]
      · change (if nt ∈ (rest.take n).map Prod.fst then c.table nt
          else Function.update c.chosen e.nt (some e) nt) = _
        rw [Function.update_apply, hnt, List.take_succ_cons, List.map_cons]
        by_cases heq : nt = taken.1
        · rw [heq, he]
          simp
        · simp [heq]
      · obtain ⟨hadmitted', hentry, hcolumn'⟩ := hwaiting x (List.mem_cons_of_mem _ hx)
        refine ⟨?_, hentry, hcolumn'⟩
        change Function.update c.admitted e.nt taken.2 x.1 = _
        rw [Function.update_of_ne, hadmitted']
        rw [hnt]
        rintro heq
        exact hnodup.1 (heq ▸ List.mem_map_of_mem hx)

/-- A non-terminal is ranked above another one, or as high and comes first. -/
def Outranks (rank : UInt16 → Score) (m n : UInt16) : Prop :=
  rank n < rank m ∨ ¬rank m < rank n ∧ m < n

/-- Entries are put in after those that are as high, so after those that come first. -/
theorem pairwise_place {x : UInt16 × Score} {xs : List (UInt16 × Score)}
    (hranked : BeamQueue.Ranked xs)
    (hxs : xs.Pairwise fun y z => z.2 < y.2 ∨ ¬y.2 < z.2 ∧ y.1 < z.1)
    (hlast : ∀ y ∈ xs, y.1 < x.1) :
    (BeamQueue.place x xs).Pairwise fun y z => z.2 < y.2 ∨ ¬y.2 < z.2 ∧ y.1 < z.1 := by
  induction xs with
  | nil => exact List.pairwise_singleton _ _
  | cons y ys ih =>
    obtain ⟨hle, -⟩ := List.pairwise_cons.1 hranked.le
    rw [BeamQueue.place_cons]
    split_ifs with hlt
    · refine List.pairwise_cons.2 ⟨fun z hz => Or.inl ?_, hxs⟩
      rcases List.mem_cons.1 hz with rfl | hz
      · exact hlt
      · exact Score.lt_of_le_of_lt (hle z hz) hlt
    · obtain ⟨hfirst, hrest⟩ := List.pairwise_cons.1 hxs
      refine List.pairwise_cons.2 ⟨fun z hz => ?_, ih (hranked.of_sublist
        (List.sublist_cons_self _ _)) hrest fun z hz => hlast z (List.mem_cons_of_mem _ hz)⟩
      rcases BeamQueue.mem_place.1 hz with rfl | hz
      · exact Or.inr ⟨hlt, hlast y List.mem_cons_self⟩
      · exact hfirst z hz

theorem pairwise_foldl_place {f : UInt16 → Score} {nts : List UInt16}
    {xs : List (UInt16 × Score)} (hnts : nts.Pairwise (· < ·)) (hranked : BeamQueue.Ranked xs)
    (hnumber : ∀ nt ∈ nts, (f nt).isNaN = false)
    (hxs : xs.Pairwise fun y z => z.2 < y.2 ∨ ¬y.2 < z.2 ∧ y.1 < z.1)
    (hlast : ∀ x ∈ xs, ∀ nt ∈ nts, x.1 < nt) :
    (nts.foldl (fun xs nt => BeamQueue.place (nt, f nt) xs) xs).Pairwise fun y z =>
      z.2 < y.2 ∨ ¬y.2 < z.2 ∧ y.1 < z.1 := by
  induction nts generalizing xs with
  | nil => exact hxs
  | cons nt nts ih =>
    obtain ⟨hfirst, hrest⟩ := List.pairwise_cons.1 hnts
    refine ih hrest (BeamQueue.ranked_place hranked (hnumber nt List.mem_cons_self))
      (fun m hm => hnumber m (List.mem_cons_of_mem _ hm))
      (pairwise_place hranked hxs fun y hy => hlast y hy nt List.mem_cons_self) fun x hx m hm => ?_
    rcases BeamQueue.mem_place.1 hx with rfl | hx
    · exact hfirst m hm
    · exact hlast x hx m (List.mem_cons_of_mem _ hm)

/-- The non-terminals of a table wait in this order. -/
theorem pairwise_enter (hs : s.Valid count)
    (hnumber : ∀ nt e, s.entryOf? nt = some e → (merit.rank span nt e.inside).isNaN = false) :
    ((enter merit span s).waiting.map Prod.fst).Pairwise
      (Outranks fun nt => merit.rank span nt (s.insideOf nt)) := by
  rw [List.pairwise_map]
  refine List.Pairwise.imp_of_mem ?_ (@pairwise_foldl_place _ _ []
    (hs.sorted_lt.imp UInt16.lt_iff_toNat_lt.2) BeamQueue.ranked_nil (fun nt hnt => ?_) .nil
    fun _ hx => nomatch hx)
  · intro x y hx hy hxy
    have hrank {z : UInt16 × Score} (hz : z ∈ (enter merit span s).waiting) :
        merit.rank span z.1 (s.insideOf z.1) = z.2 := by
      rw [(waiting_enter_perm merit span s).mem_iff, List.mem_map] at hz
      obtain ⟨nt, -, rfl⟩ := hz
      rfl
    unfold Outranks
    dsimp only
    rwa [hrank hx, hrank hy]
  · obtain ⟨e, he⟩ := (hs.mem_iff nt).1 (s.sorted_perm.mem_iff.1 hnt)
    rw [← Scratch.inside_of_entryOf? he]
    exact hnumber nt e he

/-- Where no entry of a table has a parent, the first in this order are let in. -/
theorem chosen_enter_of_flat (hs : s.Valid count)
    (hnumber : ∀ nt e, s.entryOf? nt = some e → (merit.rank span nt e.inside).isNaN = false)
    (hflat : ∀ nt e, s.entryOf? nt = some e → g.unaryByChild.column nt.toUInt32 = [])
    (n : Nat) (nt : UInt16) : (after g merit span n (enter merit span s)).chosen nt =
      if nt ∈ ((enter merit span s).waiting.map Prod.fst).take n then s.entryOf? nt else none := by
  rw [chosen_after_of_flat (orderly_enter hs hnumber) fun x hx => ?_, List.map_take]
  · rfl
  · obtain ⟨e, he, -⟩ := (mem_enter hs).1 hx
    exact ⟨rfl, ⟨e, he, Scratch.nt_of_entryOf? he⟩, hflat _ e he⟩

theorem nts_enter_perm (merit : Merit) (span : Span) (s : Scratch) :
    ((enter merit span s).waiting.map Prod.fst).Perm s.populated.toList := by
  have hperm := (waiting_enter_perm merit span s).map Prod.fst
  rw [List.map_map] at hperm
  exact (hperm.trans (.of_eq (List.map_id _))).trans s.sorted_perm

end Contest

namespace BeamSelector

open Contest (Outranks)

/-- A cell with `width` places takes the first `width` turns of the contest without limits, and so
the first of a wider cell: it has no other non-terminals than that one. If entries are ranked by
their scores and no unary rule raises a score, it has no other entries either; and if no entry has
a unary parent, it has the best that were derived. -/
theorem select_narrow {source : GrammarSource} {kind : PackingKind} {g : Grammar}
    (hg : Grammar.compile source kind = .ok g) (merit : Merit) (span : Span) {width width' : Nat}
    (hwidth : width ≤ width') (cell cell' : Cell) {s : Scratch} (hs : s.Valid g.size)
    (hnumber : ∀ nt e, s.entryOf? nt = some e → (merit.rank span nt e.inside).isNaN = false)
    (hproper : ∀ t ∈ turns g merit span width' 0 s (new g.size), t.Proper g merit span) :
    let narrow := ((new g.size).select g merit span width 0 s cell).1
    let wide := ((new g.size).select g merit span width' 0 s cell').1
    (∀ nt e, narrow.get? nt = some e → ∃ d, wide.get? nt = some d) ∧
      (turns g merit span width 0 s (new g.size)).map (·.taken) =
        Contest.pops g merit span width (.enter merit span s) ∧
      (turns g merit span width 0 s (new g.size)).map (·.taken) =
        ((turns g merit span width' 0 s (new g.size)).map (·.taken)).take width ∧
      (merit = .inside → g.Lowering → ∀ nt e, narrow.get? nt = some e → wide.get? nt = some e) ∧
      ((∀ child e, s.entryOf? child = some e → ∀ parent rule, ¬g.HasUnary parent child rule) →
        (∃ best : List UInt16, best.Perm s.populated.toList ∧
          best.Pairwise (Outranks fun nt => merit.rank span nt (s.insideOf nt)) ∧
          ∀ nt, narrow.get? nt = if nt ∈ best.take width then s.entryOf? nt else none) ∧
        (s.size ≤ width → ∀ nt, narrow.get? nt = s.entryOf? nt)) := by
  have hcoherent := Grammar.coherent_of_compile hg
  have hnew := idle_new g.size
  have hfresh := fresh_new g.size
  obtain ⟨hwide, htaken', hproper'⟩ :=
    Contest.get?_select hcoherent width' cell' hs hnew hfresh hnumber (Or.inl hproper)
  obtain ⟨hnarrow, htaken, -⟩ := Contest.get?_select hcoherent width cell hs hnew hfresh hnumber
    (Or.inr fun n hn => hproper' n (Nat.lt_of_lt_of_le hn hwidth))
  dsimp only
  simp only [hwide, hnarrow, htaken, htaken']
  refine ⟨fun nt e he => ?_, trivial, Contest.pops_take hwidth _, ?_, fun hflat => ?_⟩
  · rw [← Option.isSome_iff_exists]
    exact Contest.isSome_after hwidth (Option.isSome_iff_exists.2 ⟨e, he⟩)
  · rintro rfl hlowering nt e he
    have hsettled := Contest.settled_enter span hs fun nt e he => by
      have h := hnumber nt e he
      rwa [Merit.rank_inside] at h
    obtain ⟨n, rfl⟩ := Nat.exists_eq_add_of_le hwidth
    rw [Contest.after_add]
    exact (hsettled.after hcoherent hlowering width).kept hcoherent hlowering he n
  · have hchosen := Contest.chosen_enter_of_flat (g := g) hs hnumber fun child e he => by
      rw [List.eq_nil_iff_forall_not_mem]
      exact fun edge hedge => hflat child e he _ _ (hcoherent.unary.1 hedge)
    have hperm := Contest.nts_enter_perm merit span s
    refine ⟨⟨_, hperm, Contest.pairwise_enter hs hnumber, hchosen width⟩, fun hsize nt => ?_⟩
    rw [hchosen width, List.take_of_length_le (by rw [hperm.length_eq]; exact hsize)]
    split_ifs with hlisted
    · rfl
    · rw [hperm.mem_iff, hs.mem_iff, ← Option.isSome_iff_exists, Option.not_isSome_iff_eq_none]
        at hlisted
      exact hlisted.symm

theorem select_narrow_sample : ∃ g, ∃ s : Scratch,
    Grammar.compile (.sample true) .shift = .ok g ∧
    s.entryOf? 0 = some ⟨0, 0, .lexical 0, 0⟩ ∧
    ∀ nt e, ((new g.size).select g .inside ⟨0, 1⟩ 1 0 s .empty).1.get? nt = some e →
      ((new g.size).select g .inside ⟨0, 1⟩ 2 0 s .empty).1.get? nt = some e := by
  obtain ⟨g, hg, -, hcertain⟩ := Grammar.exists_sample true
  have hlt : (0 : UInt16).toNat < g.size :=
    Nat.zero_lt_of_lt (Grammar.coherent_of_compile hg).start_lt
  obtain ⟨s, hs, -, hself, honly⟩ :=
    Scratch.exists_single (e := ⟨0, 0, .lexical 0, 0⟩) hlt (by decide)
  refine ⟨g, s, hg, hself, (select_narrow hg .inside ⟨0, 1⟩ (Nat.le_succ 1) .empty .empty hs
    (fun nt e he => ?_) fun t _ => t.proper_of_grounded Merit.grounded_inside _).2.2.2.1
      rfl hcertain.lowering⟩
  rw [Merit.rank_inside, honly nt e he]
  rfl

end BeamSelector
end ChartParsing
