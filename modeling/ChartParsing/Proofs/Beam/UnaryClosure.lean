import ChartParsing.Proofs.Beam.Limited
import ChartParsing.Proofs.Beam.Settled
import ChartParsing.Proofs.Grammar.Making
import ChartParsing.Proofs.Score.Exact
import Mathlib.Data.Finset.Card
import Mathlib.Data.Finset.Range

/-!
# The unary closure of a cell

A chain of unary rules leads up from an entry of the table, and its value is the score of that
entry with the scores of the rules added one after the other. If entries are ranked by their
scores and no unary rule raises a score, a cell with a place for every non-terminal gets those
that chains lead to, each with the greatest value of a chain: the contest lets each non-terminal
in when nothing better waits, and every chain to one that is let in goes by others that were.
-/

namespace ChartParsing

open BeamSelector (unaryEntry)

/-- The values of chains of unary rules that lead up from entries. -/
inductive Chain (g : Grammar) (look : UInt16 → Option ChartEntry) : UInt16 → Score → Prop
  | start {nt e} (he : look nt = some e) : Chain g look nt e.inside
  | step {parent child rule x} (hrule : g.HasUnary parent child rule)
      (h : Chain g look child x) : Chain g look parent (rule + x)

/-- Values of chains are numbers if those of the entries are finite. -/
theorem Chain.absent_or_isFinite {g : Grammar} {look : UInt16 → Option ChartEntry}
    (hlowering : g.Lowering) (hfinite : ∀ nt e, look nt = some e → e.inside.IsFinite)
    {nt : UInt16} {x : Score} (h : Chain g look nt x) : x = Score.absent ∨ x.IsFinite := by
  induction h with
  | start he => exact Or.inr (hfinite _ _ he)
  | @step parent child rule x hrule _ ih =>
    exact (Score.le_zero_add (hlowering parent child rule hrule) ih).1

namespace Contest

variable {g : Grammar} {span : Span} {c : Contest} {s : Scratch}

/-- An entry with the value of a chain, which was in the table or was derived by a unary rule
from one that was let in. -/
structure Descends (g : Grammar) (span : Span) (s : Scratch) (c : Contest) (nt : UInt16)
    (e : ChartEntry) : Prop where
  present : Score.absent < e.inside
  chain : Chain g s.entryOf? nt e.inside
  origin : s.entryOf? nt = some e ∨ ∃ child rule d, e.children = .unary child ∧
    e.midpoint = span.stop ∧ g.HasUnary nt child rule ∧ c.chosen child = some d ∧
    e.inside = rule + d.inside

/-- Every entry descends from the table, nothing that was queued is forgotten, and what was in
the table was queued with a score that is not lower. -/
structure Rooted (g : Grammar) (span : Span) (s : Scratch) (c : Contest) : Prop where
  settled : c.Settled
  number : ∀ nt, (c.queued nt).isNaN = false
  lt : ∀ nt, c.queued nt ≠ Score.absent → nt.toNat < g.size
  start : ∀ nt e, s.entryOf? nt = some e → e.inside ≤ c.queued nt
  queued : ∀ nt, c.queued nt ≠ Score.absent →
    (∃ e, c.chosen nt = some e) ∨ ∃ x ∈ c.waiting, x.1 = nt
  table : ∀ nt e, c.table nt = some e → Descends g span s c nt e
  chosen : ∀ nt e, c.chosen nt = some e → Descends g span s c nt e

theorem rooted_enter (span : Span) (hs : s.Valid g.size)
    (hnumber : ∀ nt e, s.entryOf? nt = some e → e.inside.isNaN = false) :
    Rooted g span s (enter .inside span s) := by
  have hqueued (nt : UInt16) : (enter .inside span s).queued nt =
      if nt ∈ s.sorted then s.insideOf nt else Score.absent := by
    change (if nt ∈ s.sorted then Merit.inside.rank span nt (s.insideOf nt) else _) = _
    rw [Merit.rank_inside]
  have hsorted (nt : UInt16) : nt ∈ s.sorted ↔ ∃ e, s.entryOf? nt = some e :=
    s.sorted_perm.mem_iff.trans (hs.mem_iff nt)
  have hlisted {nt : UInt16} (hne : (enter .inside span s).queued nt ≠ Score.absent) :
      nt ∈ s.sorted := by
    rw [hqueued] at hne
    by_contra hnot
    rw [if_neg hnot] at hne
    exact hne rfl
  refine ⟨settled_enter span hs hnumber, fun nt => ?_, fun nt hne => ?_, fun nt e he => ?_,
    fun nt hne => ?_, fun nt e he => ?_, fun nt e he => nomatch he⟩
  · rw [hqueued]
    split_ifs with hmem
    · obtain ⟨e, he⟩ := (hsorted nt).1 hmem
      rw [← Scratch.inside_of_entryOf? he]
      exact hnumber nt e he
    · exact Score.isNaN_absent
  · exact hs.lt (s.sorted_perm.mem_iff.1 (hlisted hne))
  · rw [hqueued, if_pos ((hsorted nt).2 ⟨e, he⟩), ← Scratch.inside_of_entryOf? he]
    exact Score.le_self (hnumber nt e he)
  · obtain ⟨e, he⟩ := (hsorted nt).1 (hlisted hne)
    refine Or.inr ⟨(nt, e.inside), (mem_enter hs).2 ⟨e, he, ?_⟩, rfl⟩
    rw [Merit.rank_inside]
  · exact ⟨Score.absent_lt_iff.2 ⟨hnumber nt e he, Scratch.present_of_entryOf? he⟩, .start he,
      Or.inl he⟩

theorem Rooted.waiting_lt (h : Rooted g span s c) {x : UInt16 × Score} (hx : x ∈ c.waiting) :
    x.1.toNat < g.size := by
  obtain ⟨e, he, hrank⟩ := h.settled.entry x hx
  refine h.lt x.1 ?_
  rw [h.settled.orderly.queued x hx, ← hrank]
  exact (h.settled.table x.1 e he).2

/-! ## A turn -/

theorem Descends.mono {c' : Contest} {nt : UInt16} {e : ChartEntry}
    (hkept : ∀ nt e, c.chosen nt = some e → c'.chosen nt = some e)
    (h : Descends g span s c nt e) : Descends g span s c' nt e := by
  refine ⟨h.present, h.chain, h.origin.imp_right ?_⟩
  rintro ⟨child, rule, d, hchild, hmid, hrule, hd, hinside⟩
  exact ⟨child, rule, d, hchild, hmid, hrule, hkept child d hd, hinside⟩

theorem Rooted.accept (h : Rooted g span s c) {taken : UInt16 × Score}
    {rest : List (UInt16 × Score)} (hwaiting : c.waiting = taken :: rest) {e : ChartEntry}
    (he : c.table taken.1 = some e) (hrank : e.inside = taken.2) :
    Rooted g span s ({ c with waiting := rest }.accept e taken.2) := by
  have hself : taken ∈ c.waiting := by
    rw [hwaiting]
    exact List.mem_cons_self
  have hnt := (h.settled.table _ e he).1
  have hchosen (nt : UInt16) : ({ c with waiting := rest }.accept e taken.2).chosen nt =
      if nt = taken.1 then some e else c.chosen nt := by
    rw [← hnt]
    exact Function.update_apply ..
  have hkept : ∀ nt d, c.chosen nt = some d →
      ({ c with waiting := rest }.accept e taken.2).chosen nt = some d := by
    intro nt d hd
    rw [hchosen, if_neg]
    · exact hd
    · rintro rfl
      rw [h.settled.unchosen taken hself] at hd
      cases hd
  refine ⟨(h.settled.accept hwaiting he hrank).1, h.number, h.lt, h.start, fun nt hne => ?_,
    fun nt d hd => (h.table nt d hd).mono hkept, fun nt d hd => ?_⟩
  · rcases h.queued nt hne with ⟨d, hd⟩ | ⟨x, hx, rfl⟩
    · exact Or.inl ⟨d, hkept nt d hd⟩
    · rw [hwaiting, List.mem_cons] at hx
      rcases hx with rfl | hx
      · exact Or.inl ⟨e, by rw [hchosen, if_pos rfl]⟩
      · exact Or.inr ⟨x, hx, rfl⟩
  · rw [hchosen] at hd
    split_ifs at hd with heq
    · cases hd
      rw [heq]
      exact (h.table _ e he).mono hkept
    · exact (h.chosen nt d hd).mono hkept

theorem Rooted.raise (h : Rooted g span s c) {e : ChartEntry}
    (habove : c.queued e.nt < e.inside) (hsettled : (c.raise e e.inside).Settled)
    (hlt : e.nt.toNat < g.size) (hdescends : Descends g span s c e.nt e) :
    Rooted g span s (c.raise e e.inside) ∧
      ∀ nt, c.queued nt ≤ (c.raise e e.inside).queued nt := by
  have hne : e.inside ≠ Score.absent := Score.ne_absent_of_lt habove
  have hqueued := queued_raise c e e.inside
  have htable := table_raise c hne e.inside
  have hmem {x : UInt16 × Score} := h.settled.orderly.mem_raise habove (x := x)
  have hraised : ∀ nt, c.queued nt ≤ (c.raise e e.inside).queued nt := by
    intro nt
    rw [hqueued]
    split_ifs with heq
    · rw [heq]
      exact Score.le_of_lt habove
    · exact Score.le_self (h.number nt)
  have hsame : ∀ nt d, Descends g span s c nt d → Descends g span s (c.raise e e.inside) nt d :=
    fun _ _ hd => ⟨hd.present, hd.chain, hd.origin⟩
  refine ⟨⟨hsettled, fun nt => ?_, fun nt hnt => ?_, fun nt d hd => ?_, fun nt hnt => ?_,
    fun nt d hd => ?_, fun nt d hd => hsame nt d (h.chosen nt d hd)⟩, hraised⟩
  · rw [hqueued]
    split_ifs
    · exact (Score.lt_iff.1 habove).2.1
    · exact h.number nt
  · rw [hqueued] at hnt
    split_ifs at hnt with heq
    · rwa [heq]
    · exact h.lt nt hnt
  · exact Score.le_trans (h.start nt d hd) (hraised nt)
  · by_cases heq : nt = e.nt
    · exact Or.inr ⟨(e.nt, e.inside), hmem.2 (Or.inl rfl), heq.symm⟩
    · rw [hqueued, if_neg heq] at hnt
      rcases h.queued nt hnt with hd | ⟨x, hx, rfl⟩
      · exact Or.inl hd
      · exact Or.inr ⟨x, hmem.2 (Or.inr ⟨hx, heq⟩), rfl⟩
  · rw [htable] at hd
    split_ifs at hd with heq
    · cases hd
      rw [heq]
      exact hsame _ _ hdescends
    · exact hsame nt d (h.table nt d hd)

/-- A parent that is offered has its edge queued, if it had none that is as good. -/
theorem Rooted.offer (h : Rooted g span s c) {child : ChartEntry}
    (hchild : c.chosen child.nt = some child)
    (hleast : ∀ nt d, c.chosen nt = some d → child.inside ≤ d.inside) {edge : UInt16 × Score}
    (hlt : edge.1.toNat < g.size) (hrule : g.HasUnary edge.1 child.nt edge.2)
    (hle : edge.2 ≤ 0) : Rooted g span s (c.offer .inside span child edge) ∧
      (∀ nt, c.queued nt ≤ (c.offer .inside span child edge).queued nt) ∧
      (Score.absent < edge.2 + child.inside →
        edge.2 + child.inside ≤ (c.offer .inside span child edge).queued edge.1) := by
  have hsettled := h.settled.offer span hleast hle
  unfold Contest.offer at hsettled ⊢
  dsimp only at hsettled ⊢
  rw [Merit.grade_inside] at hsettled ⊢
  split_ifs at hsettled ⊢ with habove
  · have hnumber : (edge.2 + child.inside).isNaN = false := (Score.lt_iff.1 habove.1).2.1
    obtain ⟨hrooted, hraised⟩ := h.raise (e := unaryEntry span child edge) habove.1 hsettled hlt
      ⟨Score.present_of_lt habove.1, .step hrule (h.chosen child.nt child hchild).chain,
        Or.inr ⟨child.nt, edge.2, child, rfl, rfl, hrule, hchild, rfl⟩⟩
    refine ⟨hrooted, hraised, fun _ => ?_⟩
    have hself : edge.1 = (unaryEntry span child edge).nt := rfl
    rw [queued_raise, if_pos hself]
    exact Score.le_self hnumber
  · refine ⟨h, fun nt => Score.le_self (h.number nt), fun hpresent => ?_⟩
    refine Score.le_of_not_lt (h.number edge.1) (Score.isNaN_of_present hpresent) fun hbelow => ?_
    refine habove ⟨hbelow, ?_⟩
    cases hd : c.chosen edge.1 with
    | none =>
      rw [h.settled.admitted edge.1 hd]
      exact hpresent
    | some d =>
      obtain ⟨hadmitted, hqueued⟩ := h.settled.chosen edge.1 d hd
      rw [hadmitted, ← hqueued]
      exact hbelow

theorem Rooted.foldl_offer (h : Rooted g span s c) {child : ChartEntry}
    (hchild : c.chosen child.nt = some child)
    (hleast : ∀ nt d, c.chosen nt = some d → child.inside ≤ d.inside)
    (edges : List (UInt16 × Score))
    (hedges : ∀ edge ∈ edges, edge.1.toNat < g.size ∧ g.HasUnary edge.1 child.nt edge.2 ∧
      edge.2 ≤ 0) :
    let final := edges.foldl (Contest.offer .inside span child) c
    Rooted g span s final ∧ (∀ nt, c.queued nt ≤ final.queued nt) ∧
      ∀ edge ∈ edges, Score.absent < edge.2 + child.inside →
        edge.2 + child.inside ≤ final.queued edge.1 := by
  induction edges generalizing c with
  | nil => exact ⟨h, fun nt => Score.le_self (h.number nt), fun _ hedge => nomatch hedge⟩
  | cons edge edges ih =>
    obtain ⟨hlt, hrule, hle⟩ := hedges edge List.mem_cons_self
    obtain ⟨hstep, hraised, hthis⟩ := h.offer hchild hleast hlt hrule hle
    have hsame := chosen_offer .inside span child c edge
    obtain ⟨hrest, hraised', hothers⟩ := ih hstep (by rwa [hsame]) (by rwa [hsame])
      fun e he => hedges e (List.mem_cons_of_mem _ he)
    refine ⟨hrest, fun nt => Score.le_trans (hraised nt) (hraised' nt), fun e he hpresent => ?_⟩
    rcases List.mem_cons.1 he with rfl | he
    · exact Score.le_trans (hthis hpresent) (hraised' e.1)
    · exact hothers e he hpresent

/-- The parents of what was let in were offered. -/
def Reached (g : Grammar) (c : Contest) : Prop :=
  ∀ parent child rule d, c.chosen child = some d → g.HasUnary parent child rule →
    Score.absent < rule + d.inside → rule + d.inside ≤ c.queued parent

theorem Rooted.turn (hg : g.Coherent) (hlowering : g.Lowering) (h : Rooted g span s c)
    (hreached : Reached g c) {taken : UInt16 × Score} {rest : List (UInt16 × Score)}
    (hwaiting : c.waiting = taken :: rest) :
    Rooted g span s (Contest.turn g .inside span c) ∧
      Reached g (Contest.turn g .inside span c) := by
  obtain ⟨e, he, hrank⟩ := h.settled.entry taken (by rw [hwaiting]; exact List.mem_cons_self)
  have hnt := (h.settled.table _ e he).1
  have haccept := h.accept hwaiting he hrank
  have hleast := (h.settled.accept hwaiting he hrank).2
  have hself : ({ c with waiting := rest }.accept e taken.2).chosen e.nt = some e :=
    Function.update_self ..
  obtain ⟨hrooted, hraised, hoffered⟩ := haccept.foldl_offer hself hleast
    (g.unaryByChild.column taken.1.toUInt32) fun edge hedge => by
      have hrule := hg.unary.1 hedge
      exact ⟨BeamSelector.edges_lt hg _ edge hedge, by rwa [hnt], hlowering _ _ _ hrule⟩
  rw [h.settled.turn_eq hwaiting he]
  refine ⟨hrooted, fun parent child rule d hd hrule hpresent => ?_⟩
  rw [chosen_foldl_offer] at hd
  change Function.update c.chosen e.nt (some e) child = some d at hd
  rw [Function.update_apply] at hd
  split_ifs at hd with heq
  · cases hd
    rw [heq, hnt] at hrule
    exact hoffered (parent, rule) (hg.unary.2 hrule) hpresent
  · exact Score.le_trans (hreached parent child rule d hd hrule hpresent) (hraised parent)

/-! ## Turns one after another -/

theorem Rooted.after (hg : g.Coherent) (hlowering : g.Lowering) (h : Rooted g span s c)
    (hreached : Reached g c) (n : Nat) :
    Rooted g span s (Contest.after g .inside span n c) ∧
      Reached g (Contest.after g .inside span n c) := by
  induction n generalizing c with
  | zero => exact ⟨h, hreached⟩
  | succ n ih =>
    rw [after_succ]
    cases hwaiting : c.waiting with
    | nil =>
      rw [turn_of_nil hwaiting]
      exact ih h hreached
    | cons taken rest =>
      obtain ⟨hnext, hreached'⟩ := h.turn hg hlowering hreached hwaiting
      exact ih hnext hreached'

/-- While something waits, each turn lets in one more. -/
theorem Rooted.exists_finset (hg : g.Coherent) (hlowering : g.Lowering)
    (h : Rooted g span s c) (hreached : Reached g c) (n : Nat) :
    (Contest.after g .inside span n c).waiting = [] ∨
      ∃ done : Finset UInt16, done.card = n ∧ ∀ nt ∈ done, nt.toNat < g.size ∧
        (Contest.after g .inside span n c).chosen nt ≠ none := by
  induction n with
  | zero => exact Or.inr ⟨∅, rfl, fun nt hnt => absurd hnt (Finset.notMem_empty nt)⟩
  | succ n ih =>
    have hrooted := (h.after hg hlowering hreached n).1
    rw [after_add n 1]
    change (Contest.turn g .inside span _).waiting = [] ∨
      ∃ done : Finset UInt16, done.card = n + 1 ∧ ∀ nt ∈ done, nt.toNat < g.size ∧
        (Contest.turn g .inside span _).chosen nt ≠ none
    generalize Contest.after g .inside span n c = c' at ih hrooted ⊢
    cases hwaiting : c'.waiting with
    | nil =>
      rw [turn_of_nil hwaiting]
      exact Or.inl hwaiting
    | cons taken rest =>
      have hself : taken ∈ c'.waiting := by
        rw [hwaiting]
        exact List.mem_cons_self
      obtain ⟨done, hcard, hdone⟩ := ih.resolve_left (by simp [hwaiting])
      obtain ⟨-, e, he, -, hchosen⟩ :=
        hrooted.settled.turn hg hlowering span hwaiting
      have hnew : taken.1 ∉ done := fun hmem =>
        (hdone taken.1 hmem).2 (hrooted.settled.unchosen taken hself)
      refine Or.inr ⟨insert taken.1 done, by rw [Finset.card_insert_of_notMem hnew, hcard],
        fun nt hnt => ?_⟩
      rw [hchosen]
      rcases Finset.mem_insert.1 hnt with rfl | hnt
      · exact ⟨hrooted.waiting_lt hself, by simp⟩
      · obtain ⟨hlt, hne⟩ := hdone nt hnt
        refine ⟨hlt, ?_⟩
        split_ifs
        · simp
        · exact hne

/-- In as many turns as there are non-terminals all is let in that ever waits. -/
theorem Rooted.waiting_after (hg : g.Coherent) (hlowering : g.Lowering)
    (h : Rooted g span s c) (hreached : Reached g c) {n : Nat} (hn : g.size ≤ n) :
    (Contest.after g .inside span n c).waiting = [] := by
  have hsize : (Contest.after g .inside span g.size c).waiting = [] := by
    have hrooted := (h.after hg hlowering hreached g.size).1
    refine (h.exists_finset hg hlowering hreached g.size).elim id ?_
    rintro ⟨done, hcard, hdone⟩
    generalize Contest.after g .inside span g.size c = c' at hrooted hdone ⊢
    rw [List.eq_nil_iff_forall_not_mem]
    intro x hx
    have hnew : x.1 ∉ done := fun hmem =>
      (hdone x.1 hmem).2 (hrooted.settled.unchosen x hx)
    have hle : (insert x.1 done).card ≤ (Finset.range g.size).card := by
      refine Finset.card_le_card_of_injOn UInt16.toNat (fun nt hnt => ?_)
        fun m _ n _ hmn => UInt16.toNat_inj.1 hmn
      rcases Finset.mem_insert.1 hnt with rfl | hnt
      · exact Finset.mem_coe.2 (Finset.mem_range.2 (hrooted.waiting_lt hx))
      · exact Finset.mem_coe.2 (Finset.mem_range.2 (hdone nt hnt).1)
    rw [Finset.card_insert_of_notMem hnew, Finset.card_range, hcard] at hle
    exact Nat.not_succ_le_self _ hle
  obtain ⟨k, rfl⟩ := Nat.exists_eq_add_of_le hn
  rw [after_add, after_of_nil hsize, hsize]

/-- When nothing waits, what a chain leads to was let in with a score that is not lower. -/
theorem Rooted.exists_chosen (h : Rooted g span s c) (hreached : Reached g c)
    (hwaiting : c.waiting = []) {nt : UInt16} {x : Score} (hchain : Chain g s.entryOf? nt x)
    (hpresent : Score.absent < x) : ∃ e, c.chosen nt = some e ∧ x ≤ e.inside := by
  have hchosen {nt : UInt16} {x : Score} (hpresent : Score.absent < x)
      (hle : x ≤ c.queued nt) : ∃ e, c.chosen nt = some e ∧ x ≤ e.inside := by
    have hne : c.queued nt ≠ Score.absent :=
      Score.ne_absent_of_lt (Score.lt_of_lt_of_le hpresent hle)
    rcases h.queued nt hne with ⟨e, he⟩ | ⟨y, hy, -⟩
    · refine ⟨e, he, ?_⟩
      rwa [← (h.settled.chosen nt e he).2]
    · rw [hwaiting] at hy
      cases hy
  induction hchain with
  | start he => exact hchosen hpresent (h.start _ _ he)
  | @step parent child rule x hrule _ ih =>
    obtain ⟨hrule', hx⟩ := Score.present_of_add hpresent
    obtain ⟨d, hd, hle⟩ := ih hx
    have hsum : rule + x ≤ rule + d.inside :=
      Score.add_le_add hrule' hx (Score.le_self (Score.isNaN_of_present hrule')) hle
    exact hchosen hpresent (Score.le_trans hsum
      (hreached parent child rule d hd hrule (Score.lt_of_lt_of_le hpresent hsum)))

end Contest

namespace BeamSelector

/-- A cell with a place for every non-terminal has the unary closure of the entries that were
derived for it. -/
theorem select_unaryClosure {source : GrammarSource} {kind : PackingKind} {g : Grammar}
    (hg : Grammar.compile source kind = .ok g) (hlowering : g.Lowering) (span : Span)
    {width : Nat} (hwidth : g.size ≤ width) (cell : Cell) {s : Scratch} (hs : s.Valid g.size)
    (hplain : ∀ nt e, s.entryOf? nt = some e → ∀ child, e.children ≠ .unary child)
    (hfinite : ∀ nt e, s.entryOf? nt = some e → e.inside.IsFinite) :
    let filled := ((new g.size).select g .inside span width 0 s cell).1
    (∀ nt, (∃ e, filled.get? nt = some e) ↔
        ∃ x, Chain g s.entryOf? nt x ∧ Score.absent < x) ∧
      ∀ nt e, filled.get? nt = some e →
        (Chain g s.entryOf? nt e.inside ∧ ∀ x, Chain g s.entryOf? nt x → x ≤ e.inside) ∧
        (∀ child, e.children = .unary child → ∃ rule d, g.HasUnary nt child rule ∧
          filled.get? child = some d ∧ e.inside = rule + d.inside) ∧
        Grounded filled.get? nt ∧
        ((∀ child, e.children ≠ .unary child) → s.entryOf? nt = some e) := by
  have hcoherent := Grammar.coherent_of_compile hg
  have hnew := idle_new g.size
  have hnumber : ∀ nt e, s.entryOf? nt = some e → e.inside.isNaN = false := fun nt e he =>
    Score.isNaN_of_present (hfinite nt e he).present
  obtain ⟨hfilled, -⟩ := Contest.get?_select hcoherent width cell hs hnew (fresh_new g.size)
    (fun nt e he => by rw [Merit.rank_inside]; exact hnumber nt e he)
    (Or.inl fun t _ => t.proper_of_grounded Merit.grounded_inside span)
  have henter := Contest.rooted_enter span hs hnumber
  have hnone : Contest.Reached g (Contest.enter .inside span s) := fun _ _ _ _ hd => nomatch hd
  obtain ⟨hrooted, hreached⟩ := henter.after hcoherent hlowering hnone width
  have hwaiting := henter.waiting_after hcoherent hlowering hnone hwidth
  refine ⟨fun nt => ⟨?_, ?_⟩, fun nt e he => ⟨⟨?_, fun x hchain => ?_⟩, fun child hchild => ?_,
    (select_grounded hcoherent hlowering Merit.monotone_inside width 0 cell hs hnew hplain
      hfinite he).1, fun horiginal => ?_⟩⟩
  · rintro ⟨e, he⟩
    have hdescends := hrooted.chosen nt e ((hfilled nt).symm.trans he)
    exact ⟨e.inside, hdescends.chain, hdescends.present⟩
  · rintro ⟨x, hchain, hpresent⟩
    obtain ⟨e, he, -⟩ := hrooted.exists_chosen hreached hwaiting hchain hpresent
    exact ⟨e, (hfilled nt).trans he⟩
  all_goals have hchosen := (hfilled nt).symm.trans he
  all_goals have hdescends := hrooted.chosen nt e hchosen
  · exact hdescends.chain
  · rcases hchain.absent_or_isFinite hlowering hfinite with rfl | hx
    · exact Score.le_of_lt hdescends.present
    · obtain ⟨d, hd, hle⟩ := hrooted.exists_chosen hreached hwaiting hchain hx.present
      cases hd.symm.trans hchosen
      exact hle
  · rcases hdescends.origin with he | ⟨m, rule, d, hunary, -, hrule, hd, hinside⟩
    · exact absurd hchild (hplain nt e he child)
    · cases hchild.symm.trans hunary
      exact ⟨rule, d, hrule, (hfilled child).trans hd, hinside⟩
  · refine hdescends.origin.resolve_right ?_
    rintro ⟨m, -, -, hunary, -⟩
    exact horiginal m hunary

/-- The parent of a single entry is in its cell. -/
theorem select_unaryClosure_sample : ∃ g, ∃ s : Scratch,
    Grammar.compile (.sample true) .shift = .ok g ∧
    s.entryOf? 0 = some ⟨0, 0, .lexical 0, 0⟩ ∧
    ∃ e, ((new g.size).select g .inside ⟨0, 1⟩ g.size 0 s .empty).1.get? 1 = some e := by
  obtain ⟨g, hg, -, hcertain⟩ := Grammar.exists_sample true
  have hlt : (0 : UInt16).toNat < g.size :=
    Nat.zero_lt_of_lt (Grammar.coherent_of_compile hg).start_lt
  obtain ⟨s, hs, -, hself, honly⟩ :=
    Scratch.exists_single (e := ⟨0, 0, .lexical 0, 0⟩) hlt (by decide)
  have hrule : g.HasUnary 1 0 0 := (Grammar.hasUnary_sample_iff hg).2 ⟨rfl, rfl, rfl⟩
  have hchain : Chain g s.entryOf? 1 (0 + 0) := .step hrule (.start hself)
  rw [Score.add_zero_zero] at hchain
  refine ⟨g, s, hg, hself, ((select_unaryClosure hg hcertain.lowering ⟨0, 1⟩
    (Nat.le_refl g.size) .empty hs (fun nt e he child => ?_) fun nt e he => ?_).1 1).2
      ⟨0, hchain, by decide⟩⟩
  · rw [honly nt e he]
    exact nofun
  · rw [honly nt e he]
    exact Score.isFinite_zero

end BeamSelector
end ChartParsing
