import ChartParsing.Proofs.Chart.Grounded
import ChartParsing.Proofs.Derivation.Soundness

/-!
# Pointers of a chart

The entries of a closed chart have what they point to, and a rule by which they are derived
from it. Binary pointers lead to shorter spans. A tree can therefore be read off from an entry
unless its pointers lead into a circle, which only unary ones can make.
-/

namespace ChartParsing

open Relation

/-- What an entry of a cell over a span was derived from is on the chart, or in the cell, and
there is a rule that derives it. -/
def Cell.Supports (g : Grammar) (words : Array UInt32) (chart : Chart) (s : Span) (cell : Cell)
    (e : ChartEntry) : Prop :=
  match e.children with
  | .lexical word => s.length = 1 ∧ words[s.start.toNat]? = some word ∧
      ∃ score, g.HasTag e.nt word score
  | .binary key => s.start < e.midpoint ∧ e.midpoint < s.stop ∧
      ∃ l ∈ (chart.cell ⟨s.start, e.midpoint⟩).toList,
        ∃ r ∈ (chart.cell ⟨e.midpoint, s.stop⟩).toList,
          g.packing.unpack key = some (l.nt, r.nt) ∧ ∃ rule, g.HasBinary e.nt l.nt r.nt rule
  | .unary child => e.midpoint = s.stop ∧ ∃ c ∈ cell.toList, c.nt = child ∧
      ∃ rule, g.HasUnary e.nt child rule

/-- The entries of a cell are supported, and none has the score of what is absent. -/
structure Cell.Closed (g : Grammar) (words : Array UInt32) (chart : Chart) (s : Span)
    (cell : Cell) : Prop where
  ordered : cell.Ordered
  lt : ∀ e ∈ cell.toList, e.nt.toNat < g.size
  present : ∀ e ∈ cell.toList, e.inside ≠ Score.absent
  supports : ∀ e ∈ cell.toList, cell.Supports g words chart s e

namespace Chart

/-- All cells of the chart are closed. -/
def Closed (g : Grammar) (words : Array UInt32) (chart : Chart) : Prop :=
  ∀ s, s.within chart.size = true → (chart.cell s).Closed g words chart s

/-- One pointer leads from an entry of the chart to a non-terminal over a span. -/
inductive Leads (g : Grammar) (chart : Chart) : Span × UInt16 → Span × UInt16 → Prop
  | unary {s nt e child} (he : (chart.cell s).get? nt = some e)
      (hchild : e.children = .unary child) : Leads g chart (s, nt) (s, child)
  | left {s nt e key l r} (he : (chart.cell s).get? nt = some e)
      (hkey : e.children = .binary key) (hunpack : g.packing.unpack key = some (l, r)) :
      Leads g chart (s, nt) (⟨s.start, e.midpoint⟩, l)
  | right {s nt e key l r} (he : (chart.cell s).get? nt = some e)
      (hkey : e.children = .binary key) (hunpack : g.packing.unpack key = some (l, r)) :
      Leads g chart (s, nt) (⟨e.midpoint, s.stop⟩, r)

variable {g : Grammar} {words : Array UInt32} {chart : Chart} {s : Span} {nt : UInt16}
  {e : ChartEntry}

theorem Closed.get?_iff (h : chart.Closed g words) (hs : s.within chart.size = true) :
    (chart.cell s).get? nt = some e ↔ e ∈ (chart.cell s).toList ∧ e.nt = nt :=
  (h s hs).ordered.get?_eq_some

/-- The child of a unary entry has an entry of the same cell. -/
theorem Closed.exists_child (h : chart.Closed g words) (hs : s.within chart.size = true)
    {child : UInt16} (hpoints : Points (chart.cell s).get? nt child) :
    ∃ c, (chart.cell s).get? child = some c := by
  obtain ⟨e, he, hchild⟩ := hpoints
  have hsupports := (h s hs).supports e ((h.get?_iff hs).1 he).1
  unfold Cell.Supports at hsupports
  rw [hchild] at hsupports
  obtain ⟨-, c, hc, hnt, -⟩ := hsupports
  exact ⟨c, (h.get?_iff hs).2 ⟨hc, hnt⟩⟩

/-- The children of a binary entry have entries over the shorter spans that it splits into. -/
theorem Closed.exists_parts (h : chart.Closed g words) (hs : s.within chart.size = true)
    (he : (chart.cell s).get? nt = some e) {key : UInt32} (hkey : e.children = .binary key) :
    (s.start < e.midpoint ∧ e.midpoint < s.stop) ∧ e.midpoint ∈ s.midpoints ∧ ∃ l r,
      g.packing.unpack key = some (l.nt, r.nt) ∧
      (chart.cell ⟨s.start, e.midpoint⟩).get? l.nt = some l ∧
      (chart.cell ⟨e.midpoint, s.stop⟩).get? r.nt = some r := by
  have hsupports := (h s hs).supports e ((h.get?_iff hs).1 he).1
  unfold Cell.Supports at hsupports
  rw [hkey] at hsupports
  obtain ⟨hstart, hstop, l, hl, r, hr, hunpack, -⟩ := hsupports
  have hmid : e.midpoint ∈ s.midpoints := by
    rw [Span.mem_midpoints hs, ← UInt16.lt_iff_toNat_lt, ← UInt16.lt_iff_toNat_lt]
    exact ⟨hstart, hstop⟩
  obtain ⟨⟨hs₁, -⟩, hs₂, -⟩ := Span.inside_of_mem_midpoints hs hmid
  exact ⟨⟨hstart, hstop⟩, hmid, l, r, hunpack, (h.get?_iff hs₁).2 ⟨hl, rfl⟩,
    (h.get?_iff hs₂).2 ⟨hr, rfl⟩⟩

/-- A chain of unary pointers in a closed chart has fewer of them than there are
non-terminals. -/
theorem Closed.follows_lt (h : chart.Closed g words) (hs : s.within chart.size = true)
    {steps : Nat} (hsteps : Follows (chart.cell s).get? steps nt) : steps < g.size := by
  refine hsteps.lt fun m d hd => ?_
  obtain ⟨hmem, rfl⟩ := (h.get?_iff hs).1 hd
  exact (h s hs).lt d hmem

/-! ## Reading a tree off -/

/-- A tree can be read off where all entries that pointers lead to are grounded. -/
theorem Closed.exists_treeWithin (h : chart.Closed g words) (hs : s.within chart.size = true)
    {steps : Nat} (hsteps : Follows (chart.cell s).get? steps nt)
    (hgrounded : ∀ t m d, t.within chart.size = true →
      ReflTransGen (Leads g chart) (s, nt) (t, m) → (chart.cell t).get? m = some d →
        Grounded (chart.cell t).get? m) (overruns : Nat) {unaries : Nat}
    (hunaries : steps ≤ unaries) :
    ∃ t, chart.treeWithin g overruns s nt unaries = .ok t := by
  generalize hn : s.length = n
  induction n using Nat.strongRecOn generalizing s steps nt unaries with
  | ind n ih =>
    induction hsteps generalizing unaries with
    | @plain nt e he hplain =>
      cases hc : e.children with
      | lexical word => exact ⟨_, treeWithin_lexical hs he hc overruns unaries⟩
      | unary child => exact absurd hc (hplain child)
      | binary key =>
        obtain ⟨hsplit, hmid, l, r, hunpack, hl, hr⟩ := h.exists_parts hs he hc
        obtain ⟨⟨hs₁, hinside₁⟩, hs₂, hinside₂⟩ := Span.inside_of_mem_midpoints hs hmid
        have hpart {t : Span} (ht : t.within chart.size = true) (hlength : t.length < s.length)
            {m : UInt16} {d : ChartEntry} (hd : (chart.cell t).get? m = some d)
            (hnext : Leads g chart (s, nt) (t, m)) :
            ∃ u, chart.treeWithin g overruns t m g.size = .ok u := by
          obtain ⟨steps, hsteps⟩ := hgrounded t m d ht (.single hnext) hd
          exact ih t.length (hn ▸ hlength) ht hsteps
            (fun u k c hu hreach => hgrounded u k c hu (.head hnext hreach))
            (Nat.le_of_lt (h.follows_lt ht hsteps)) rfl
        obtain ⟨t, ht⟩ := hpart hs₁ (hinside₁.length_lt hs) hl (.left he hc hunpack)
        obtain ⟨u, hu⟩ := hpart hs₂ (hinside₂.length_lt hs) hr (.right he hc hunpack)
        exact ⟨_, treeWithin_binary hs he hc hunpack hsplit unaries ht hu⟩
    | @unary steps nt e child he hchild hfollows ihsteps =>
      obtain ⟨unaries, rfl⟩ :=
        Nat.exists_eq_add_of_le' (Nat.le_trans (Nat.le_add_left 1 steps) hunaries)
      have hnext : Leads g chart (s, nt) (s, child) := .unary he hchild
      obtain ⟨t, ht⟩ := ihsteps (fun u k c hu hreach => hgrounded u k c hu (.head hnext hreach))
        (Nat.le_of_succ_le_succ hunaries)
      exact ⟨_, treeWithin_unary hs he hchild ht⟩

/-! ## Circles -/

/-- A tree can be read off from a non-terminal over a span, within some bounds. -/
def Readable (g : Grammar) (chart : Chart) (place : Span × UInt16) : Prop :=
  ∃ overruns unaries t, chart.treeWithin g overruns place.1 place.2 unaries = .ok t

theorem holds_of_treeWithin {overruns unaries : Nat} {t : Tree UInt16 Nat}
    (h : chart.treeWithin g overruns s nt unaries = .ok t) : chart.holds s = true := by
  by_contra hnot
  rw [treeWithin, if_neg hnot] at h
  cases h

theorem exists_entry_of_treeWithin {overruns unaries : Nat} {t : Tree UInt16 Nat}
    (h : chart.treeWithin g overruns s nt unaries = .ok t) :
    ∃ e, (chart.cell s).get? nt = some e := by
  rw [← Option.ne_none_iff_exists']
  intro hnone
  rw [treeWithin_none (holds_of_treeWithin h) hnone] at h
  cases h

theorem exists_of_treeWithin_unary {overruns unaries : Nat} {t : Tree UInt16 Nat} {child : UInt16}
    (he : (chart.cell s).get? nt = some e) (hchild : e.children = .unary child)
    (h : chart.treeWithin g overruns s nt unaries = .ok t) :
    ∃ rest u, unaries = rest + 1 ∧ chart.treeWithin g overruns s child rest = .ok u ∧
      t = .branch ⟨nt, s.start.toNat, s.stop.toNat⟩ [u] := by
  have hs := holds_of_treeWithin h
  cases unaries with
  | zero =>
    rw [treeWithin_unary_zero hs he hchild] at h
    cases h
  | succ rest =>
    rw [treeWithin_unary_succ hs he hchild] at h
    obtain ⟨u, hu, ht⟩ := bind_eq_ok.1 h
    exact ⟨rest, u, rfl, hu, (Except.ok.inj ht).symm⟩

theorem exists_of_treeWithin_binary {overruns unaries : Nat} {t : Tree UInt16 Nat} {key : UInt32}
    {l r : UInt16} (he : (chart.cell s).get? nt = some e) (hkey : e.children = .binary key)
    (hunpack : g.packing.unpack key = some (l, r))
    (hsplit : s.start < e.midpoint ∧ e.midpoint < s.stop)
    (h : chart.treeWithin g overruns s nt unaries = .ok t) :
    ∃ u v, chart.treeWithin g overruns ⟨s.start, e.midpoint⟩ l g.size = .ok u ∧
      chart.treeWithin g overruns ⟨e.midpoint, s.stop⟩ r g.size = .ok v ∧
      t = .branch ⟨nt, s.start.toNat, s.stop.toNat⟩ [u, v] := by
  rw [treeWithin_split (holds_of_treeWithin h) he hkey hunpack hsplit] at h
  obtain ⟨u, hu, h⟩ := bind_eq_ok.1 h
  obtain ⟨v, hv, h⟩ := bind_eq_ok.1 h
  exact ⟨u, v, hu, hv, (Except.ok.inj h).symm⟩

/-- Where a tree can be read off, one can be read off from all that a pointer leads to. -/
theorem Readable.of_leads (hclosed : chart.Closed g words) {place next : Span × UInt16}
    (h : Readable g chart place) (hleads : Leads g chart place next) :
    Readable g chart next := by
  obtain ⟨overruns, unaries, t, ht⟩ := h
  have hs := holds_of_treeWithin ht
  cases hleads with
  | unary he hchild =>
    obtain ⟨rest, u, -, hu, -⟩ := exists_of_treeWithin_unary he hchild ht
    exact ⟨overruns, rest, u, hu⟩
  | left he hkey hunpack =>
    obtain ⟨hsplit, -⟩ := hclosed.exists_parts hs he hkey
    obtain ⟨u, -, hu, -, -⟩ := exists_of_treeWithin_binary he hkey hunpack hsplit ht
    exact ⟨overruns, g.size, u, hu⟩
  | right he hkey hunpack =>
    obtain ⟨hsplit, -⟩ := hclosed.exists_parts hs he hkey
    obtain ⟨-, v, -, hv, -⟩ := exists_of_treeWithin_binary he hkey hunpack hsplit ht
    exact ⟨overruns, g.size, v, hv⟩

/-- Where a tree can be read off, following unary pointers ends. -/
theorem grounded_of_treeWithin {overruns unaries : Nat} {t : Tree UInt16 Nat}
    (h : chart.treeWithin g overruns s nt unaries = .ok t) : Grounded (chart.cell s).get? nt := by
  induction unaries using Nat.strongRecOn generalizing nt t with
  | ind unaries ih =>
    obtain ⟨e, he⟩ := exists_entry_of_treeWithin h
    by_cases hunary : ∃ child, e.children = .unary child
    · obtain ⟨child, hchild⟩ := hunary
      obtain ⟨rest, u, rfl, hu, -⟩ := exists_of_treeWithin_unary he hchild h
      exact .unary he hchild (ih rest (Nat.lt_succ_self rest) hu)
    · exact .plain he fun child hchild => hunary ⟨child, hchild⟩

/-- Pointers lead to all constituents of a tree that is read off a closed chart. -/
theorem Closed.leads_of_mem_constituents (h : chart.Closed g words)
    (hs : s.within chart.size = true) {overruns unaries : Nat} {t : Tree UInt16 Nat}
    (ht : chart.treeWithin g overruns s nt unaries = .ok t) {c : Covering UInt16}
    (hc : c ∈ t.constituents) : ∃ u m, u.within chart.size = true ∧
      ReflTransGen (Leads g chart) (s, nt) (u, m) ∧ c = ⟨m, u.start.toNat, u.stop.toNat⟩ := by
  generalize hn : s.length = n
  induction n using Nat.strongRecOn generalizing s nt unaries t with
  | ind n ih =>
    induction unaries using Nat.strongRecOn generalizing nt t with
    | ind unaries ihunaries =>
      obtain ⟨e, he⟩ := exists_entry_of_treeWithin ht
      cases hchildren : e.children with
      | lexical word =>
        rw [treeWithin_lexical hs he hchildren] at ht
        cases ht
        exact ⟨s, nt, hs, .refl, List.mem_singleton.1 hc⟩
      | unary child =>
        obtain ⟨rest, u, rfl, hu, rfl⟩ := exists_of_treeWithin_unary he hchildren ht
        change c ∈ _ :: (u.constituents ++ []) at hc
        rw [List.append_nil, List.mem_cons] at hc
        rcases hc with hc | hc
        · exact ⟨s, nt, hs, .refl, hc⟩
        · obtain ⟨w, m, hw, hreach, hceq⟩ := ihunaries rest (Nat.lt_succ_self rest) hu hc
          exact ⟨w, m, hw, .head (.unary he hchildren) hreach, hceq⟩
      | binary key =>
        obtain ⟨hsplit, hmid, l, r, hunpack, -⟩ := h.exists_parts hs he hchildren
        obtain ⟨⟨hs₁, hinside₁⟩, hs₂, hinside₂⟩ := Span.inside_of_mem_midpoints hs hmid
        obtain ⟨u, v, hu, hv, rfl⟩ := exists_of_treeWithin_binary he hchildren hunpack hsplit ht
        change c ∈ _ :: (u.constituents ++ (v.constituents ++ [])) at hc
        rw [List.append_nil, List.mem_cons, List.mem_append] at hc
        rcases hc with hc | hc | hc
        · exact ⟨s, nt, hs, .refl, hc⟩
        · obtain ⟨w, m, hw, hreach, hceq⟩ := ih _ (hn ▸ hinside₁.length_lt hs) hs₁ hu hc rfl
          exact ⟨w, m, hw, .head (.left he hchildren hunpack) hreach, hceq⟩
        · obtain ⟨w, m, hw, hreach, hceq⟩ := ih _ (hn ▸ hinside₂.length_lt hs) hs₂ hv hc rfl
          exact ⟨w, m, hw, .head (.right he hchildren hunpack) hreach, hceq⟩

/-- A tree can be read off from an entry of a closed chart just if no pointers lead from it into
a circle of unary ones. -/
theorem Closed.exists_tree_iff (h : chart.Closed g words) (hs : s.within chart.size = true)
    (he : (chart.cell s).get? nt = some e) : (∃ t, chart.tree g s nt = .ok t) ↔
      ∀ t m, ReflTransGen (Leads g chart) (s, nt) (t, m) →
        ¬TransGen (Points (chart.cell t).get?) m m := by
  constructor
  · rintro ⟨tree, htree⟩ t m hreach
    have hreadable : Readable g chart (t, m) := by
      have hfirst : Readable g chart (s, nt) := ⟨_, _, tree, htree⟩
      generalize (t, m) = place at hreach
      induction hreach with
      | refl => exact hfirst
      | tail _ hleads ih => exact ih.of_leads h hleads
    obtain ⟨overruns, unaries, u, hu⟩ := hreadable
    exact (grounded_of_treeWithin hu).acyclic
  · intro hacyclic
    have hgrounded : ∀ t m d, t.within chart.size = true →
        ReflTransGen (Leads g chart) (s, nt) (t, m) → (chart.cell t).get? m = some d →
          Grounded (chart.cell t).get? m := by
      intro t m d ht hreach hd
      refine grounded_of_acyclic (fun _ _ => h.exists_child ht) (fun n hn => ?_) .refl hd
      have hlift : ReflTransGen (Leads g chart) (t, m) (t, n) := by
        apply ReflTransGen.lift (fun n => (t, n)) _ m n hn
        rintro n child ⟨d, hd, hchild⟩
        exact .unary hd hchild
      exact hacyclic t n (hreach.trans hlift)
    obtain ⟨steps, hsteps⟩ := hgrounded s nt e hs .refl he
    exact h.exists_treeWithin hs hsteps hgrounded _ (Nat.le_of_lt (h.follows_lt hs hsteps))

end Chart
end ChartParsing
