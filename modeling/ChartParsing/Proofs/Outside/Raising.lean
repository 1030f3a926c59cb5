import ChartParsing.Outside
import ChartParsing.Proofs.Chart.Cell
import ChartParsing.Proofs.Chart.Places
import ChartParsing.Proofs.Score.Order

/-!
# Raising outside scores

An outside score is only ever raised. Whatever the order in which scores are offered to an
entry, it ends with the greatest number among them, or with the score it had.
-/

namespace ChartParsing

/-- The greatest number among scores, or the absent score if nothing is above it. -/
structure Score.IsMaximum (candidates : Score → Prop) (x : Score) : Prop where
  isNaN : x.isNaN = false
  attained : x = absent ∨ candidates x
  le : ∀ y, candidates y → y.isNaN = false → y ≤ x

namespace Score

variable {P Q : Score → Prop} {x : Score}

theorem IsMaximum.none : IsMaximum (fun _ => False) absent :=
  ⟨isNaN_absent, Or.inl rfl, fun _ h => h.elim⟩

theorem IsMaximum.congr (h : IsMaximum P x) (hPQ : ∀ y, P y ↔ Q y) : IsMaximum Q x :=
  ⟨h.isNaN, h.attained.imp_right (hPQ x).1, fun y hy => h.le y ((hPQ y).2 hy)⟩

/-- Candidates that are no numbers, or absent, make no difference. -/
theorem IsMaximum.of_present (h : IsMaximum P x) (hPQ : ∀ y, P y → Q y)
    (hQP : ∀ y, Q y → absent < y → P y) : IsMaximum Q x := by
  refine ⟨h.isNaN, h.attained.imp_right (hPQ x), fun y hy hnumber => ?_⟩
  by_cases hpresent : absent < y
  · exact h.le y (hQP y hy hpresent) hnumber
  · obtain rfl : y = absent := by
      by_contra hne
      exact hpresent (absent_lt_iff.2 ⟨hnumber, hne⟩)
    by_cases hx : x = absent
    · rw [hx]
      exact le_self isNaN_absent
    · exact le_of_lt (absent_lt_iff.2 ⟨h.isNaN, hx⟩)

/-- One more candidate, taken if it is above the maximum so far. -/
theorem IsMaximum.raise (h : IsMaximum P x) (z : Score) :
    IsMaximum (fun y => P y ∨ y = z) (if x < z then z else x) := by
  split_ifs with hlt
  · have hz : z.isNaN = false := (lt_iff.1 hlt).2.1
    refine ⟨hz, Or.inr (Or.inr rfl), ?_⟩
    rintro y (hy | rfl) hnumber
    · exact le_trans (h.le y hy hnumber) (le_of_lt hlt)
    · exact le_self hz
  · refine ⟨h.isNaN, h.attained.imp_right Or.inl, ?_⟩
    rintro y (hy | rfl) hnumber
    · exact h.le y hy hnumber
    · exact le_of_not_lt h.isNaN hnumber hlt

end Score

namespace OutsideCell

/-- The cell has a place for each entry of a cell. -/
structure Fits (c : OutsideCell) (cell : Cell) : Prop where
  nts : c.nts = cell.nonTerminals.toArray
  scores : c.scores.size = cell.size

theorem fits_ofCell (cell : Cell) : (ofCell cell).Fits cell :=
  ⟨rfl, by simp [ofCell]⟩

variable {c : OutsideCell} {cell : Cell}

/-- A non-terminal is found where the cell has its entry. -/
theorem Fits.indexOf?_eq_some (h : c.Fits cell) (hcell : cell.Ordered) {nt : UInt16} {i : Nat} :
    c.indexOf? nt = some i ↔ cell.nonTerminals[i]? = some nt := by
  have hget (i : Nat) : cell.nonTerminals.toArray[i]? = cell.entries[i]?.map (·.nt) := by
    simp [Cell.nonTerminals, Cell.toList]
  have hsize : cell.nonTerminals.toArray.size = cell.size := by simp [Cell.nonTerminals]
  have hfind := SortedSearch.find?_eq_some (fun _ _ => UInt16.lt_iff_toNat_lt) (Nat.zero_le _)
    hcell.increasing nt i
  unfold indexOf?
  rw [h.nts, hsize, funext hget, hfind, ← hget, List.getElem?_toArray]
  refine ⟨fun hi => hi.2.2, fun hi => ⟨Nat.zero_le _, ?_, hi⟩⟩
  have := (List.getElem?_eq_some_iff.1 hi).1
  simpa [Cell.nonTerminals] using this

theorem Fits.raise (h : c.Fits cell) (nt : UInt16) (score : Score) :
    (c.raise nt score).Fits cell := by
  unfold OutsideCell.raise
  split
  · split_ifs
    · exact ⟨h.nts, by simpa using h.scores⟩
    · exact h
  · exact h

theorem Fits.indexOf?_eq_none (h : c.Fits cell) (hcell : cell.Ordered) {nt : UInt16} :
    c.indexOf? nt = none ↔ nt ∉ cell.nonTerminals := by
  rw [List.mem_iff_getElem?, not_exists, Option.eq_none_iff_forall_ne_some]
  exact forall_congr' fun i => not_congr (h.indexOf?_eq_some hcell)

theorem Fits.get_eq (h : c.Fits cell) (hcell : cell.Ordered) {nt : UInt16} {i : Nat}
    (hi : cell.nonTerminals[i]? = some nt) : c.get nt = c.scores.getD i Score.absent := by
  rw [get, (h.indexOf?_eq_some hcell).2 hi]

theorem Fits.get_eq_absent (h : c.Fits cell) (hcell : cell.Ordered) {nt : UInt16}
    (hnt : nt ∉ cell.nonTerminals) : c.get nt = Score.absent := by
  rw [get, (h.indexOf?_eq_none hcell).2 hnt]

/-- Only an entry of the cell can be raised, and only above what it has. -/
theorem Fits.get_raise (h : c.Fits cell) (hcell : cell.Ordered) (nt : UInt16) (score : Score)
    (other : UInt16) : (c.raise nt score).get other =
      if other = nt ∧ nt ∈ cell.nonTerminals ∧ c.get nt < score then score else c.get other := by
  unfold OutsideCell.raise
  cases hindex : c.indexOf? nt with
  | none =>
    rw [if_neg fun hand => (h.indexOf?_eq_none hcell).1 hindex hand.2.1]
  | some i =>
    have hi := (h.indexOf?_eq_some hcell).1 hindex
    have hlt : i < c.scores.size := by
      have := (List.getElem?_eq_some_iff.1 hi).1
      rw [h.scores]
      simpa [Cell.nonTerminals] using this
    rw [h.get_eq hcell hi]
    dsimp only
    by_cases hscore : c.scores.getD i Score.absent < score
    · rw [if_pos hscore]
      have hraised : Fits { c with scores := c.scores.setIfInBounds i score } cell :=
        ⟨h.nts, by simpa using h.scores⟩
      by_cases hother : other = nt
      · subst hother
        rw [hraised.get_eq hcell hi, if_pos ⟨rfl, List.mem_of_getElem? hi, hscore⟩]
        simp [Array.getD_eq_getD_getElem?, hlt]
      · rw [if_neg fun hand => hother hand.1]
        by_cases hmem : other ∈ cell.nonTerminals
        · obtain ⟨j, hj⟩ := List.mem_iff_getElem?.1 hmem
          have hne : i ≠ j := by
            rintro rfl
            rw [hi] at hj
            exact hother (Option.some.inj hj).symm
          rw [hraised.get_eq hcell hj, h.get_eq hcell hj]
          simp [Array.getD_eq_getD_getElem?, Array.getElem?_setIfInBounds_ne hne]
        · rw [hraised.get_eq_absent hcell hmem, h.get_eq_absent hcell hmem]
    · rw [if_neg hscore, if_neg fun hand => hscore hand.2.2]

/-- What has been reached are the entries that have a score. -/
theorem Fits.mem_reached (h : c.Fits cell) (hcell : cell.Ordered) {nt : UInt16} {score : Score} :
    (nt, score) ∈ c.reached ↔
      nt ∈ cell.nonTerminals ∧ score = c.get nt ∧ score ≠ Score.absent := by
  have hne : (score != Score.absent) = true ↔ score ≠ Score.absent := by
    rw [bne, Bool.not_eq_true', Bool.eq_false_iff, ne_eq, Score.beq_absent]
  have hzip : (nt, score) ∈ c.toList ↔ nt ∈ cell.nonTerminals ∧ score = c.get nt := by
    have hlength : cell.nonTerminals.length = c.scores.size := by
      rw [h.scores]
      simp [Cell.nonTerminals]
    unfold toList
    rw [h.nts]
    simp only [List.mem_iff_getElem?, List.getElem?_zip_eq_some]
    constructor
    · rintro ⟨i, hi, hscore⟩
      refine ⟨⟨i, hi⟩, ?_⟩
      rw [h.get_eq hcell hi, Array.getD_eq_getD_getElem?, ← Array.getElem?_toList, hscore]
      rfl
    · rintro ⟨⟨i, hi⟩, rfl⟩
      have hlt : i < c.scores.size := by
        rw [← hlength]
        exact (List.getElem?_eq_some_iff.1 hi).1
      refine ⟨i, hi, ?_⟩
      rw [h.get_eq hcell hi]
      simp [hlt]
  unfold reached
  rw [List.mem_filter, hzip, and_assoc]
  exact and_congr_right fun _ => and_congr_right fun _ => hne

end OutsideCell

/-- The cells of a chart have their entries in order. -/
def Chart.Ordered (chart : Chart) : Prop :=
  ∀ s, s.within chart.size = true → (chart.cell s).Ordered

theorem Chart.ordered_of_mem {chart : Chart} (h : ∀ cell ∈ chart.cells, cell.Ordered) :
    chart.Ordered := by
  intro s _
  unfold Chart.cell
  rw [Array.getD_eq_getD_getElem?]
  cases hcell : chart.cells[chart.index s]? with
  | none => exact Cell.ordered_empty
  | some cell => exact h cell (Array.mem_of_getElem? hcell)

/-- A score offered to an entry. -/
structure OutsideOffer where
  span : Span
  nt : UInt16
  score : Score

namespace OutsideChart

/-- The chart has a place for each entry of a chart. -/
structure Fits (o : OutsideChart) (chart : Chart) : Prop where
  size : o.size = chart.size
  count : o.cells.size = Chart.spanCount chart.size
  cell : ∀ s, s.within chart.size = true → (o.cell s).Fits (chart.cell s)

variable {o : OutsideChart} {chart : Chart}

theorem Fits.getElem?_cells (h : o.Fits chart) {s : Span} (hs : s.within chart.size = true) :
    o.cells[o.index s]? = some (o.cell s) := by
  have hlt := Span.index_lt hs
  unfold OutsideChart.cell index
  rw [h.size, Array.getD_eq_getD_getElem?, Array.getElem?_eq_getElem (by rw [h.count]; exact hlt)]
  rfl

/-- A score raised in one cell leaves all others. -/
theorem Fits.cell_raise (h : o.Fits chart) {s t : Span} (hs : s.within chart.size = true)
    (ht : t.within chart.size = true) (nt : UInt16) (score : Score) :
    (o.raise s nt score).cell t = if t = s then (o.cell s).raise nt score else o.cell t := by
  have hcell := h.getElem?_cells ht
  unfold OutsideChart.cell index at hcell ⊢
  unfold OutsideChart.raise index
  dsimp only
  rw [Array.getD_eq_getD_getElem?, Array.getElem?_modify]
  split_ifs with hindex heq heq
  · rw [heq, ← heq, hcell]
    rfl
  · rw [h.size] at hindex
    exact absurd (Span.index_injective ht hs hindex.symm) heq
  · exact absurd (heq ▸ rfl) hindex
  · rw [hcell]
    rfl

theorem Fits.raise (h : o.Fits chart) {s : Span} (hs : s.within chart.size = true) (nt : UInt16)
    (score : Score) : (o.raise s nt score).Fits chart := by
  refine ⟨h.size, by simpa [OutsideChart.raise] using h.count, fun t ht => ?_⟩
  rw [h.cell_raise hs ht]
  split_ifs with heq
  · exact heq ▸ (h.cell s hs).raise nt score
  · exact h.cell t ht

theorem cell_unreached {s : Span} (hs : s.within chart.size = true) :
    (unreached chart).cell s = .ofCell (chart.cell s) := by
  unfold OutsideChart.cell unreached index
  rw [Array.getD_eq_getD_getElem?, List.getElem?_toArray, List.getElem?_map,
    Span.getElem?_all hs]
  rfl

theorem fits_unreached (chart : Chart) : (unreached chart).Fits chart := by
  refine ⟨rfl, ?_, fun s hs => ?_⟩
  · simp [unreached, Span.length_all]
  · rw [cell_unreached hs]
    exact OutsideCell.fits_ofCell _

theorem Fits.get_eq (h : o.Fits chart) {s : Span} (hs : s.within chart.size = true)
    (nt : UInt16) : o.get s nt = (o.cell s).get nt := by
  rw [get, h.size, if_pos hs]

theorem get_unreached {s : Span} (hchart : chart.Ordered) (hs : s.within chart.size = true)
    (nt : UInt16) : (unreached chart).get s nt = Score.absent := by
  have hfits := (fits_unreached chart).cell s hs
  rw [(fits_unreached chart).get_eq hs, cell_unreached hs]
  by_cases hnt : nt ∈ (chart.cell s).nonTerminals
  · obtain ⟨i, hi⟩ := List.mem_iff_getElem?.1 hnt
    rw [(OutsideCell.fits_ofCell _).get_eq (hchart s hs) hi]
    simp only [OutsideCell.ofCell, Array.getD_eq_getD_getElem?, Array.getElem?_replicate]
    split_ifs <;> rfl
  · exact (OutsideCell.fits_ofCell _).get_eq_absent (hchart s hs) hnt

/-- What is no entry of the chart has no score. -/
theorem Fits.get_eq_absent (h : o.Fits chart) (hchart : chart.Ordered) {s : Span} {nt : UInt16}
    (hnt : ¬(s.within chart.size = true ∧ nt ∈ (chart.cell s).nonTerminals)) :
    o.get s nt = Score.absent := by
  by_cases hs : s.within chart.size = true
  · rw [h.get_eq hs]
    exact (h.cell s hs).get_eq_absent (hchart s hs) fun hmem => hnt ⟨hs, hmem⟩
  · rw [get, h.size, if_neg hs]

/-- Scores offered to entries, one after the other. -/
def raiseAll (offers : List OutsideOffer) (o : OutsideChart) : OutsideChart :=
  offers.foldl (fun o f => o.raise f.span f.nt f.score) o

theorem Fits.raiseAll (h : o.Fits chart) {offers : List OutsideOffer}
    (hoffers : ∀ f ∈ offers, f.span.within chart.size = true) : (o.raiseAll offers).Fits chart := by
  induction offers generalizing o with
  | nil => exact h
  | cons f offers ih =>
    exact ih (h.raise (hoffers f List.mem_cons_self) f.nt f.score)
      fun f' hf' => hoffers f' (List.mem_cons_of_mem _ hf')

/-- Nothing is raised over a span for which there is no offer. -/
theorem Fits.get_raiseAll_of_ne (h : o.Fits chart) {offers : List OutsideOffer}
    (hoffers : ∀ f ∈ offers, f.span.within chart.size = true) {s : Span}
    (hs : s.within chart.size = true) (hne : ∀ f ∈ offers, f.span ≠ s) (nt : UInt16) :
    (o.raiseAll offers).get s nt = o.get s nt := by
  induction offers generalizing o with
  | nil => rfl
  | cons f offers ih =>
    have hf := hoffers f List.mem_cons_self
    have hnext := h.raise hf f.nt f.score
    refine (ih hnext (fun f' hf' => hoffers f' (List.mem_cons_of_mem _ hf'))
      fun f' hf' => hne f' (List.mem_cons_of_mem _ hf')).trans ?_
    rw [hnext.get_eq hs, h.get_eq hs, h.cell_raise hf hs,
      if_neg fun heq => hne f List.mem_cons_self heq.symm]

/-- An entry has the greatest of the scores that it had and that were offered to it. -/
theorem Fits.isMaximum_raiseAll (h : o.Fits chart) (hchart : chart.Ordered)
    {offers : List OutsideOffer} (hoffers : ∀ f ∈ offers, f.span.within chart.size = true)
    {s : Span} (hs : s.within chart.size = true) {nt : UInt16}
    (hnt : nt ∈ (chart.cell s).nonTerminals) {candidates : Score → Prop}
    (hmax : Score.IsMaximum candidates (o.get s nt)) :
    Score.IsMaximum (fun x => candidates x ∨ ⟨s, nt, x⟩ ∈ offers)
      ((o.raiseAll offers).get s nt) := by
  induction offers generalizing o candidates with
  | nil => exact hmax.congr fun x => by simp
  | cons f offers ih =>
    obtain ⟨span, other, score⟩ := f
    have hf : span.within chart.size = true := hoffers ⟨span, other, score⟩ List.mem_cons_self
    have hnext := h.raise hf other score
    have hget : (o.raise span other score).get s nt =
        if s = span ∧ nt = other ∧ o.get s nt < score then score else o.get s nt := by
      rw [hnext.get_eq hs, h.get_eq hs, h.cell_raise hf hs]
      by_cases heq : s = span
      · subst heq
        rw [if_pos rfl, (h.cell s hs).get_raise (hchart s hs)]
        by_cases hother : nt = other
        · subst hother
          simp [hnt]
        · simp [hother]
      · rw [if_neg heq, if_neg fun hand => heq hand.1]
    have hstep : Score.IsMaximum
        (fun x => candidates x ∨ (s = span ∧ nt = other ∧ x = score))
        ((o.raise span other score).get s nt) := by
      rw [hget]
      by_cases heq : s = span ∧ nt = other
      · simpa [heq] using hmax.raise score
      · rw [if_neg fun hand => heq ⟨hand.1, hand.2.1⟩]
        exact hmax.congr fun x => by
          constructor
          · exact Or.inl
          · rintro (hx | ⟨hspan, hother, -⟩)
            · exact hx
            · exact absurd ⟨hspan, hother⟩ heq
    refine (ih hnext (fun f' hf' => hoffers f' (List.mem_cons_of_mem _ hf')) hstep).congr
      fun x => ?_
    rw [List.mem_cons, OutsideOffer.mk.injEq, or_assoc]

end OutsideChart
end ChartParsing
