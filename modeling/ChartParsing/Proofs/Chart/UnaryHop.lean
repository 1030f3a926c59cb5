import ChartParsing.Proofs.Chart.Kept
import ChartParsing.Proofs.Chart.UnaryStep
import ChartParsing.Proofs.Grammar.Making
import ChartParsing.Proofs.Score.Exact

/-!
# One hop over unary rules

A unary step is one hop from the entries that stand in a table before it. Which parents are
improved, and by which child, is said by these entries alone; so it does not depend on the
order in which the new entries are written. A child that is hopped from is not hopped to, so no
chain of new entries forms, whatever the unary rules are.
-/

namespace ChartParsing

namespace UnaryStep

variable {g : Grammar} {s old : Scratch} {stop parent child : UInt16} {sum : Score}

/-- The sum of a unary rule and the score of a listed child is above what the parent has. -/
def Improves (g : Grammar) (s : Scratch) (parent child : UInt16) (sum : Score) : Prop :=
  child ∈ s.populated.toList ∧ ∃ rule, g.HasUnary parent child rule ∧
    sum = rule + s.insideOf child ∧ s.insideOf parent < sum

/-- The child with the greatest sum that improves a parent, the first that is listed if several
have it. -/
def BestChild (g : Grammar) (s : Scratch) (parent : UInt16) : UInt16 → Score → Prop :=
  IsBest (Improves g s parent) fun child => s.populated.toList.idxOf child

theorem Improves.isNaN (h : Improves g s parent child sum) : sum.isNaN = false := by
  obtain ⟨-, rule, -, -, habove⟩ := h
  exact Score.isNaN_of_present (Score.present_of_lt habove)

/-- A unary rule has one score, so a child has one sum for a parent. -/
theorem Improves.sum_eq (hg : g.Coherent) {sum' : Score} (h : Improves g s parent child sum)
    (h' : Improves g s parent child sum') : sum = sum' := by
  obtain ⟨-, rule, hrule, rfl, -⟩ := h
  obtain ⟨-, rule', hrule', rfl, -⟩ := h'
  rw [← hg.unaryLogProb hrule, ← hg.unaryLogProb hrule']

theorem BestChild.unique (hg : g.Coherent) {child' : UInt16} {sum' : Score}
    (h : BestChild g s parent child sum) (h' : BestChild g s parent child' sum') :
    child = child' ∧ sum = sum' := by
  obtain rfl := (List.idxOf_inj h.attained.1).1 (h.rank_eq h')
  exact ⟨rfl, h.attained.sum_eq hg h'.attained⟩

/-- The edges from a child that improve one parent. -/
def improvingOf (g : Grammar) (s : Scratch) (stop parent child : UInt16) : List ChartEntry :=
  (edgesOf g s stop child).filter fun e => e.nt = parent ∧ s.insideOf e.nt < e.inside

theorem offeredFor_improving (g : Grammar) (s : Scratch) (stop parent : UInt16) :
    Scratch.offeredFor parent (improving g s stop) =
      s.populated.toList.flatMap (improvingOf g s stop parent) := by
  unfold Scratch.offeredFor improving edges
  rw [List.filter_filter, List.filter_flatMap]
  congr 1
  funext child
  unfold improvingOf
  refine List.filter_congr fun e _ => ?_
  rw [← Bool.decide_and, decide_eq_decide]
  constructor
  · rintro ⟨⟨hnt, -⟩, habove⟩
    exact ⟨hnt, habove⟩
  · rintro ⟨hnt, habove⟩
    exact ⟨⟨hnt, Score.present_of_lt habove⟩, habove⟩

theorem mem_improvingOf (hg : g.Coherent) (hchild : child ∈ s.populated.toList) {e : ChartEntry} :
    e ∈ improvingOf g s stop parent child ↔
      Improves g s parent child e.inside ∧ e = ⟨parent, e.inside, .unary child, stop⟩ := by
  unfold improvingOf edgesOf
  simp only [List.mem_filter, List.mem_map, decide_eq_true_eq]
  constructor
  · rintro ⟨⟨⟨nt, rule⟩, hedge, rfl⟩, rfl, habove⟩
    exact ⟨⟨hchild, rule, hg.unary.1 hedge, rfl, habove⟩, rfl⟩
  · rintro ⟨⟨-, rule, hrule, hsum, habove⟩, he⟩
    rw [he]
    refine ⟨⟨(parent, rule), hg.unary.2 hrule, ?_⟩, rfl, habove⟩
    rw [hsum]

/-- What is not among the first of a list has its place no earlier than what follows them. -/
theorem idxOf_le {before after : List UInt16} {nt : UInt16} (h : nt ∉ before) :
    (before ++ child :: after).idxOf child ≤ (before ++ child :: after).idxOf nt := by
  rw [List.idxOf_append_of_notMem h]
  by_cases hmem : child ∈ before
  · rw [List.idxOf_append_of_mem hmem]
    have := List.idxOf_lt_length_iff.2 hmem
    omega
  · rw [List.idxOf_append_of_notMem hmem, List.idxOf_cons_self]
    omega

/-- The first of the greatest edges to a parent comes from its best child. -/
theorem bestChild_of_firstGreatest (hg : g.Coherent) {e : ChartEntry}
    (h : FirstGreatest (·.inside) (Scratch.offeredFor parent (improving g s stop)) e) :
    ∃ child sum, BestChild g s parent child sum ∧ e = ⟨parent, sum, .unary child, stop⟩ := by
  rw [offeredFor_improving] at h
  have hparts (child : UInt16) (sum : Score) : Improves g s parent child sum ↔
      child ∈ s.populated.toList ∧ ∃ e ∈ improvingOf g s stop parent child, e.inside = sum := by
    constructor
    · intro himproves
      exact ⟨himproves.1, ⟨parent, sum, .unary child, stop⟩,
        (mem_improvingOf hg himproves.1).2 ⟨himproves, rfl⟩, rfl⟩
    · rintro ⟨hchild, e, he, rfl⟩
      exact ((mem_improvingOf hg hchild).1 he).1
  obtain ⟨child, hchild, he, hbest⟩ := h.isBest hparts (fun _ _ => Improves.isNaN)
    fun before child after hlist nt _ hnt => hlist ▸ idxOf_le hnt
  exact ⟨child, e.inside, hbest, ((mem_improvingOf hg hchild).1 he).2⟩

/-- The candidate of a parent is the edge from its best child. -/
theorem candidate_iff (hg : g.Coherent) (hold : old.Valid g.size) {e : ChartEntry} :
    (candidates g s stop old).entryOf? parent = some e ↔
      ∃ child sum, BestChild g s parent child sum ∧ e = ⟨parent, sum, .unary child, stop⟩ := by
  obtain ⟨hreset, -, habsent⟩ := hold.reset
  have hkept (d : ChartEntry) := hreset.entryOf?_updateAll_of_none (e := d)
    (improving_lt hg s stop) (Scratch.entryOf?_eq_none.2 (habsent parent))
  constructor
  · intro he
    exact bestChild_of_firstGreatest hg ((hkept e).1 he)
  · rintro ⟨child, sum, hbest, rfl⟩
    obtain ⟨hchild, rule, hrule, hsum, habove⟩ := hbest.attained
    obtain ⟨d, hd, -⟩ := exists_candidate (e := ⟨parent, sum, .unary child, stop⟩) hg hold
      ((mem_edges hg).2 ⟨child, hchild, rule, hrule, hsum, rfl, rfl⟩) habove
    obtain ⟨child', sum', hbest', rfl⟩ := bestChild_of_firstGreatest hg ((hkept d).1 hd)
    obtain ⟨rfl, rfl⟩ := hbest.unique hg hbest'
    exact hd

theorem exists_bestChild (hg : g.Coherent) (hold : old.Valid g.size)
    (h : Improves g s parent child sum) : ∃ child sum, BestChild g s parent child sum := by
  obtain ⟨hchild, rule, hrule, hsum, habove⟩ := h
  obtain ⟨d, hd, -⟩ := exists_candidate (e := ⟨parent, sum, .unary child, 0⟩) hg hold
    ((mem_edges hg).2 ⟨child, hchild, rule, hrule, hsum, rfl, rfl⟩) habove
  obtain ⟨child, sum, hbest, -⟩ := (candidate_iff hg hold).1 hd
  exact ⟨child, sum, hbest⟩

/-- A parent is blocked if it is itself the best child of another, or its own. -/
theorem blocked_iff (hg : g.Coherent) (hold : old.Valid g.size) {nt : UInt16} :
    Blocked (candidates g s stop old) nt ↔ ∃ parent sum, BestChild g s parent nt sum := by
  unfold Blocked
  constructor
  · rintro ⟨parent, e, he, hchildren⟩
    obtain ⟨child, sum, hbest, rfl⟩ := (candidate_iff hg hold).1 he
    cases hchildren
    exact ⟨parent, sum, hbest⟩
  · rintro ⟨parent, sum, hbest⟩
    exact ⟨parent, _, (candidate_iff hg hold).2 ⟨nt, sum, hbest, rfl⟩, rfl⟩

/-- The table `after` is one simultaneous hop from the table `s`. -/
structure Hop (g : Grammar) (stop : UInt16) (s after : Scratch) : Prop where
  valid : after.Valid g.size
  /-- What improves a parent at all has one best child. -/
  best : ∀ parent child sum, Improves g s parent child sum →
    ∃! c : UInt16 × Score, BestChild g s parent c.1 c.2
  /-- A parent gets the edge from its best child just if no hop is made from itself. -/
  entered : ∀ parent child sum, BestChild g s parent child sum →
    (after.entryOf? parent = some ⟨parent, sum, .unary child, stop⟩ ↔
      ∀ other sum', ¬BestChild g s other parent sum')
  /-- Whatever nothing improves, or a hop is made from, stays as it was. -/
  kept : ∀ nt, ((∀ child sum, ¬Improves g s nt child sum) ∨
    ∃ parent sum, BestChild g s parent nt sum) → after.entryOf? nt = s.entryOf? nt
  /-- A unary entry is the edge from a best child, whose own entry is as before and not unary. -/
  grounded : ∀ nt e child, after.entryOf? nt = some e → e.children = .unary child →
    BestChild g s nt child e.inside ∧ e.midpoint = stop ∧
      ∃ rule d, g.HasUnary nt child rule ∧ s.entryOf? child = some d ∧
        after.entryOf? child = some d ∧ (∀ other, d.children ≠ .unary other) ∧
        e.inside = rule + d.inside

end UnaryStep

namespace Scratch

variable {g : Grammar} {s old : Scratch}

/-- A unary step over entries none of which is unary is one simultaneous hop. -/
theorem hop_addUnaries {source : GrammarSource} {kind : PackingKind}
    (h : Grammar.compile source kind = .ok g) (hs : s.Valid g.size) (hold : old.Valid g.size)
    (hplain : ∀ nt e child, s.entryOf? nt = some e → e.children ≠ .unary child) (stop : UInt16) :
    UnaryStep.Hop g stop s (s.addUnaries g stop old).1 := by
  have hg := Grammar.coherent_of_compile h
  obtain ⟨hvalid, hblocked, hfree⟩ := entryOf?_addUnaries stop hg hs hold
  simp only [UnaryStep.blocked_iff hg hold] at hblocked hfree
  have hkept (nt : UInt16) (hnt : (∀ child sum, ¬UnaryStep.Improves g s nt child sum) ∨
      ∃ parent sum, UnaryStep.BestChild g s parent nt sum) :
      (s.addUnaries g stop old).1.entryOf? nt = s.entryOf? nt := by
    by_cases hchild : ∃ parent sum, UnaryStep.BestChild g s parent nt sum
    · exact hblocked nt hchild
    · have hnone : (UnaryStep.candidates g s stop old).entryOf? nt = none := by
        rw [Option.eq_none_iff_forall_ne_some]
        intro e he
        obtain ⟨child, sum, hbest, -⟩ := (UnaryStep.candidate_iff hg hold).1 he
        exact (hnt.resolve_right hchild) child sum hbest.attained
      rw [hfree nt hchild, hnone, Option.none_or]
  refine ⟨hvalid, fun parent child sum himproves => ?_, fun parent child sum hbest => ?_, hkept,
    fun nt e child he hchildren => ?_⟩
  · obtain ⟨child, sum, hbest⟩ := UnaryStep.exists_bestChild hg hold himproves
    refine ⟨(child, sum), hbest, fun c hc => ?_⟩
    obtain ⟨hchild, hsum⟩ := UnaryStep.BestChild.unique hg hc hbest
    exact Prod.ext hchild hsum
  · constructor
    · intro hentry other sum' hheld
      rw [hblocked parent ⟨other, sum', hheld⟩] at hentry
      exact hplain parent _ child hentry rfl
    · intro hheld
      rw [hfree parent fun hex => hex.elim fun other hex => hex.elim (hheld other),
        (UnaryStep.candidate_iff hg hold).2 ⟨child, sum, hbest, rfl⟩, Option.some_or]
  · have hnot : ¬∃ parent sum, UnaryStep.BestChild g s parent nt sum := by
      intro hheld
      rw [hblocked nt hheld] at he
      exact hplain nt e child he hchildren
    rw [hfree nt hnot, Option.or_eq_some_iff] at he
    rcases he with he | ⟨-, he⟩
    · obtain ⟨child', sum, hbest, rfl⟩ := (UnaryStep.candidate_iff hg hold).1 he
      cases hchildren
      obtain ⟨hlisted, rule, hrule, hsum, -⟩ := hbest.attained
      obtain ⟨d, hd⟩ := (hs.mem_iff child).1 hlisted
      refine ⟨hbest, rfl, rule, d, hrule, hd, ?_, fun other => hplain child d other hd, ?_⟩
      · rw [hkept child (Or.inr ⟨nt, sum, hbest⟩), hd]
      · rw [inside_of_entryOf? hd]
        exact hsum
    · exact absurd hchildren (hplain nt e child he)

/-- Over a tag alone the sample's unary rule enters the start symbol, and the tag stays. -/
theorem hop_addUnaries_sample : ∃ g, ∃ s : Scratch,
    Grammar.compile (.sample true) .shift = .ok g ∧
    (s.addUnaries g 1 (new g.size)).1.entryOf? 1 = some ⟨1, 0, .unary 0, 1⟩ ∧
    (s.addUnaries g 1 (new g.size)).1.entryOf? 0 = some ⟨0, 0, .lexical 0, 0⟩ := by
  obtain ⟨g, hg, -⟩ := Grammar.exists_sample true
  have hcoherent := Grammar.coherent_of_compile hg
  obtain ⟨s, hs, -, hself, honly⟩ := exists_single (e := ⟨0, 0, .lexical 0, 0⟩)
    (Nat.zero_lt_of_lt hcoherent.start_lt) (by decide)
  have hlisted {nt : UInt16} (hnt : nt ∈ s.populated.toList) : nt = 0 := by
    obtain ⟨e, he⟩ := (hs.mem_iff nt).1 hnt
    rw [← nt_of_entryOf? he, honly nt e he]
  have himproves : UnaryStep.Improves g s 1 0 0 := by
    refine ⟨(hs.mem_iff 0).2 ⟨_, hself⟩, 0, (Grammar.hasUnary_sample_iff hg).2 ⟨rfl, rfl, rfl⟩, ?_, ?_⟩
    · rw [← inside_of_entryOf? hself]
      exact Score.add_zero_zero.symm
    · have hnone : s.insideOf 1 = Score.absent := by
        by_contra hne
        exact absurd (hlisted ((hs.mem 1).2 hne)) (by decide)
      rw [hnone]
      decide
  have hbest : UnaryStep.BestChild g s 1 0 0 := by
    refine ⟨himproves, fun other sum' hother => ?_, fun other sum' hother _ => ?_⟩
    · obtain rfl := hlisted hother.1
      rw [hother.sum_eq hcoherent himproves]
      decide
    · rw [hlisted hother.1]
  have hplain (nt : UInt16) (e : ChartEntry) (child : UInt16) (he : s.entryOf? nt = some e) :
      e.children ≠ .unary child := by
    rw [honly nt e he]
    exact nofun
  have hhop := hop_addUnaries hg hs (valid_new g.size) hplain 1
  refine ⟨g, s, hg, (hhop.entered 1 0 0 hbest).2 fun other sum' hheld => ?_, ?_⟩
  · exact absurd (hlisted hheld.attained.1) (by decide)
  · exact (hhop.kept 0 (Or.inr ⟨1, 0, hbest⟩)).trans hself

end Scratch
end ChartParsing
