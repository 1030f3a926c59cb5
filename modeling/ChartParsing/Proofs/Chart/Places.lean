import ChartParsing.Chart.Basic
import Mathlib.Order.Basic
import Mathlib.Tactic.SplitIfs

/-!
# Places of cells

The rows of a chart lie one after the other without gaps, so every span of a sentence
has a place of its own. Putting a cell on a chart changes no other cell.
-/

namespace ChartParsing

namespace Span

/-- A span ends after it starts, and within the sentence. -/
theorem within_iff {size : Nat} {s : Span} :
    s.within size = true ↔ s.start.toNat < s.stop.toNat ∧ s.stop.toNat ≤ size := by
  simp [within, UInt16.lt_iff_toNat_lt]

theorem ext_toNat {s t : Span} (hstart : s.start.toNat = t.start.toNat)
    (hstop : s.stop.toNat = t.stop.toNat) : s = t := by
  cases s
  cases t
  rw [UInt16.toNat_inj] at hstart hstop
  simp_all

/-- Where the row of a first position starts. -/
def rowStart (size : Nat) : Nat → Nat
  | 0 => 0
  | start + 1 => rowStart size start + (size - start)

theorem triangle_succ (n : Nat) : (n + 1) * n / 2 = n * (n - 1) / 2 + n := by
  have : (n + 1) * n = n * (n - 1) + n * 2 := by
    cases n with
    | zero => rfl
    | succ n => rw [Nat.add_sub_cancel, ← Nat.mul_add, Nat.mul_comm]
  rw [this, Nat.add_mul_div_right _ _ (by omega)]

theorem triangle_mul_two (n : Nat) : n * (n - 1) / 2 * 2 = n * (n - 1) := by
  induction n with
  | zero => rfl
  | succ n ih =>
    rw [Nat.add_sub_cancel, triangle_succ, Nat.add_mul, ih]
    cases n with
    | zero => rfl
    | succ n => rw [Nat.add_sub_cancel, ← Nat.mul_add, Nat.mul_comm]

theorem rowStart_eq (size start : Nat) (h : start ≤ size) :
    start * (start - 1) / 2 + rowStart size start = start * size := by
  induction start with
  | zero => simp [rowStart]
  | succ start ih =>
    have := ih (by omega)
    rw [Nat.add_sub_cancel, triangle_succ, Nat.succ_mul, rowStart]
    omega

theorem rowStart_self (size : Nat) : rowStart size size = Chart.spanCount size := by
  have hrow := rowStart_eq size size (Nat.le_refl size)
  have htwice := triangle_mul_two size
  have hsquare : size * size = size * (size - 1) + size := by
    cases size with
    | zero => rfl
    | succ n => rw [Nat.add_sub_cancel, Nat.mul_succ (n + 1)]
  have hcount : Chart.spanCount size = size * (size - 1) / 2 + size := by
    unfold Chart.spanCount
    rw [Nat.mul_comm, triangle_succ]
  omega

theorem rowStart_mono (size : Nat) {start stop : Nat} (h : start ≤ stop) :
    rowStart size start ≤ rowStart size stop := by
  induction stop with
  | zero =>
    obtain rfl : start = 0 := by omega
    exact Nat.le_refl _
  | succ stop ih =>
    rcases Nat.lt_or_ge stop start with hlt | hge
    · obtain rfl : start = stop + 1 := by omega
      exact Nat.le_refl _
    · have := ih hge
      rw [rowStart]
      omega

theorem index_eq {size : Nat} {s : Span} (h : s.within size = true) :
    s.index size = rowStart size s.start.toNat + (s.stop.toNat - s.start.toNat - 1) := by
  rw [within_iff] at h
  have hrow := rowStart_eq size s.start.toNat (by omega)
  unfold index
  dsimp only
  omega

theorem index_lt {size : Nat} {s : Span} (h : s.within size = true) :
    s.index size < Chart.spanCount size := by
  have hindex := index_eq h
  rw [within_iff] at h
  have hnext := rowStart_mono size (show s.start.toNat + 1 ≤ size by omega)
  rw [rowStart_self, rowStart] at hnext
  omega

/-- Different spans of a sentence have different places. -/
theorem index_injective {size : Nat} {s t : Span} (hs : s.within size = true)
    (ht : t.within size = true) (h : s.index size = t.index size) : s = t := by
  rw [index_eq hs, index_eq ht] at h
  rw [within_iff] at hs ht
  have hstart : s.start.toNat = t.start.toNat := by
    rcases Nat.lt_trichotomy s.start.toNat t.start.toNat with hlt | heq | hlt
    · have := rowStart_mono size hlt
      rw [rowStart] at this
      omega
    · exact heq
    · have := rowStart_mono size hlt
      rw [rowStart] at this
      omega
  rw [hstart] at h
  exact ext_toNat hstart (by omega)

theorem exists_row {size i stop : Nat} (h : i < rowStart size stop) :
    ∃ start < stop, rowStart size start ≤ i ∧ i < rowStart size (start + 1) := by
  induction stop with
  | zero => exact absurd h (Nat.not_lt_zero i)
  | succ stop ih =>
    rcases Nat.lt_or_ge i (rowStart size stop) with hlt | hge
    · obtain ⟨start, hstart, hrow⟩ := ih hlt
      exact ⟨start, by omega, hrow⟩
    · exact ⟨stop, by omega, hge, h⟩

/-- Every place is that of a span. -/
theorem exists_of_lt {size i : Nat} (hsize : size ≤ 65535) (h : i < Chart.spanCount size) :
    ∃ s : Span, s.within size = true ∧ s.index size = i := by
  rw [← rowStart_self] at h
  obtain ⟨start, hstart, hlo, hhi⟩ := exists_row h
  rw [rowStart] at hhi
  have hstart' : (UInt16.ofNat start).toNat = start := Nat.mod_eq_of_lt (by omega)
  have hstop' : (UInt16.ofNat (start + 1 + (i - rowStart size start))).toNat
      = start + 1 + (i - rowStart size start) := Nat.mod_eq_of_lt (by omega)
  have hwithin : (⟨UInt16.ofNat start, UInt16.ofNat (start + 1 + (i - rowStart size start))⟩
      : Span).within size = true := by
    rw [within_iff, hstart', hstop']
    omega
  refine ⟨_, hwithin, ?_⟩
  rw [index_eq hwithin, hstart', hstop']
  omega

/-- The midpoints of a span lie strictly inside it. -/
theorem mem_midpoints {size : Nat} {s : Span} (h : s.within size = true)
    {m : UInt16} : m ∈ s.midpoints ↔ s.start.toNat < m.toNat ∧ m.toNat < s.stop.toNat := by
  rw [within_iff] at h
  have hstop := s.stop.toNat_lt
  have hfirst : (s.start + 1).toNat = s.start.toNat + 1 := by
    rw [UInt16.toNat_add]
    exact Nat.mod_eq_of_lt (by change s.start.toNat + 1 < _; omega)
  unfold midpoints
  rw [hfirst, List.mem_map]
  constructor
  · rintro ⟨n, hn, rfl⟩
    rw [List.mem_range'_1] at hn
    have : (UInt16.ofNat n).toNat = n := Nat.mod_eq_of_lt (by omega)
    omega
  · intro hm
    refine ⟨m.toNat, ?_, by simp⟩
    rw [List.mem_range'_1]
    omega

/-- The spans that start at a position, the shortest first. -/
def row (size start : Nat) : List Span :=
  (List.range' (start + 1) (size - start)).map fun stop =>
    ⟨UInt16.ofNat start, UInt16.ofNat stop⟩

/-- The rows before a position make up the places before it. -/
theorem getElem?_rows (size stop : Nat) :
    ((List.range stop).flatMap (row size)).length = rowStart size stop ∧
      ∀ start < stop, ∀ j < size - start,
        ((List.range stop).flatMap (row size))[rowStart size start + j]? =
          some ⟨UInt16.ofNat start, UInt16.ofNat (start + 1 + j)⟩ := by
  induction stop with
  | zero => exact ⟨rfl, fun start h => absurd h (Nat.not_lt_zero _)⟩
  | succ stop ih =>
    obtain ⟨hlength, hget⟩ := ih
    rw [List.range_succ, List.flatMap_append, List.flatMap_singleton]
    refine ⟨?_, fun start hstart j hj => ?_⟩
    · rw [List.length_append, hlength]
      simp [row, rowStart]
    · rcases Nat.lt_succ_iff_lt_or_eq.1 hstart with hlt | rfl
      · have hrow := rowStart_mono size hlt
        rw [rowStart] at hrow
        rw [List.getElem?_append_left (by omega)]
        exact hget start hlt j hj
      · rw [List.getElem?_append_right (by omega), hlength, Nat.add_sub_cancel_left]
        simp [row, hj]

theorem length_all (size : Nat) : (all size).length = Chart.spanCount size := by
  rw [← rowStart_self]
  exact (getElem?_rows size size).1

/-- Every span is listed at its place. -/
theorem getElem?_all {size : Nat} {s : Span} (h : s.within size = true) :
    (all size)[s.index size]? = some s := by
  have hindex := index_eq h
  rw [within_iff] at h
  have hget := (getElem?_rows size size).2 s.start.toNat (by omega)
    (s.stop.toNat - s.start.toNat - 1) (by omega)
  rw [hindex]
  refine hget.trans (congrArg some (ext_toNat ?_ ?_))
  · simp
  · have : s.start.toNat + 1 + (s.stop.toNat - s.start.toNat - 1) = s.stop.toNat := by omega
    simp [this]

end Span

namespace Chart

/-- A chart has a place for every span of its sentence. -/
def Sized (c : Chart) : Prop := c.cells.size = spanCount c.size

variable {c : Chart}

theorem Sized.replace (h : c.Sized) (s : Span) (cell : Cell) : (c.replace s cell).2.Sized := by
  unfold Sized Chart.replace
  dsimp only
  rw [Array.size_setIfInBounds]
  exact h

theorem cell_replace_self (h : c.Sized) {s : Span} (hs : s.within c.size = true) (cell : Cell) :
    (c.replace s cell).2.cell s = cell := by
  have hlt := Span.index_lt hs
  unfold Chart.cell Chart.replace Chart.index
  dsimp only
  rw [Array.getD_eq_getD_getElem?, Array.getElem?_setIfInBounds, if_pos rfl,
    if_pos (by rw [h]; exact hlt)]
  rfl

/-- A cell put in the place of one span leaves those of all others. -/
theorem cell_replace_ne {s t : Span} (hs : s.within c.size = true)
    (ht : t.within c.size = true) (hne : s ≠ t) (cell : Cell) :
    (c.replace s cell).2.cell t = c.cell t := by
  have hindex : c.index s ≠ c.index t := fun h => hne (Span.index_injective hs ht h)
  unfold Chart.cell Chart.replace
  dsimp only
  rw [Array.getD_eq_getD_getElem?, Array.getD_eq_getD_getElem?]
  change ((c.cells.setIfInBounds (c.index s) cell)[c.index t]?).getD ∅ = _
  rw [Array.getElem?_setIfInBounds_ne hindex]

theorem sized_clear (size : Nat) : (c.clear size).Sized := by
  unfold Sized clear
  dsimp only
  rw [Array.size_append, Array.size_replicate, Array.size_map, Array.size_shrink]
  omega

theorem mem_clear (size : Nat) {cell : Cell} (h : cell ∈ (c.clear size).cells) : cell = ∅ := by
  unfold clear at h
  rw [Array.mem_append] at h
  rcases h with h | h
  · obtain ⟨old, -, rfl⟩ := Array.mem_map.1 h
    exact old.clear_eq_empty
  · exact (Array.mem_replicate.1 h).2

/-- A cleared chart has no entries. -/
theorem cell_clear (size : Nat) (s : Span) : (c.clear size).cell s = ∅ := by
  unfold cell
  rw [Array.getD_eq_getD_getElem?]
  cases hget : (c.clear size).cells[(c.clear size).index s]? with
  | none => rfl
  | some cell => exact mem_clear size (Array.mem_of_getElem? hget)

/-- Charts of one size with equal cells are equal. -/
theorem ext_cells {c d : Chart} (hc : c.Sized) (hd : d.Sized) (hsize : c.size = d.size)
    (hlimit : c.size ≤ 65535) (h : ∀ s, s.within c.size = true → c.cell s = d.cell s) :
    c = d := by
  have hlength : c.cells.size = d.cells.size := by rw [hc, hd, hsize]
  have hcells : c.cells = d.cells := by
    apply Array.ext hlength
    intro i hi hi'
    obtain ⟨s, hs, hindex⟩ := Span.exists_of_lt hlimit (by rw [← hc]; exact hi)
    have hcell := h s hs
    unfold cell Chart.index at hcell
    rw [← hsize, hindex, Array.getD_eq_getD_getElem?, Array.getD_eq_getD_getElem?,
      Array.getElem?_eq_getElem hi, Array.getElem?_eq_getElem hi'] at hcell
    exact hcell
  cases c
  cases d
  simp_all

/-- Clearing leaves nothing of a chart. -/
theorem clear_congr (c d : Chart) {size : Nat} (h : size ≤ 65535) :
    c.clear size = d.clear size := by
  refine ext_cells (sized_clear size) (sized_clear size) rfl h ?_
  intro s _
  rw [cell_clear, cell_clear]

theorem sum_set (xs : List Nat) (i x : Nat) (hi : i < xs.length) :
    ((xs.set i x).foldr (· + ·) 0) + xs[i] = xs.foldr (· + ·) 0 + x := by
  induction xs generalizing i with
  | nil => exact absurd hi (Nat.not_lt_zero i)
  | cons y ys ih =>
    cases i with
    | zero =>
      simp only [List.set_cons_zero, List.foldr_cons, List.getElem_cons_zero]
      omega
    | succ i =>
      have := ih i (by simpa using hi)
      simp only [List.set_cons_succ, List.foldr_cons, List.getElem_cons_succ]
      omega

/-- Entries are counted anew for the one cell that is exchanged. -/
theorem population_replace (h : c.Sized) {s : Span} (hs : s.within c.size = true) (cell : Cell) :
    (c.replace s cell).2.population + (c.cell s).size = c.population + cell.size := by
  have hlt : c.index s < c.cells.size := by
    rw [h]
    exact Span.index_lt hs
  have hsum := sum_set (c.cells.toList.map Cell.size) (c.index s) cell.size (by simpa using hlt)
  have hcell : c.cell s = c.cells[c.index s] := by
    unfold Chart.cell
    rw [Array.getD_eq_getD_getElem?, Array.getElem?_eq_getElem hlt]
    rfl
  unfold population
  change (((c.cells.setIfInBounds (c.index s) cell).toList.map Cell.size).foldr (· + ·) 0) + _ = _
  rw [Array.toList_setIfInBounds, List.map_set, hcell]
  simpa using hsum

theorem population_clear (size : Nat) : (c.clear size).population = 0 := by
  have h (cells : List Cell) (hcells : ∀ cell ∈ cells, cell = ∅) :
      (cells.map Cell.size).foldr (· + ·) 0 = 0 := by
    induction cells with
    | nil => rfl
    | cons cell cells ih =>
      rw [List.map_cons, List.foldr_cons, ih fun cell hcell => hcells cell (.tail _ hcell),
        hcells cell (.head _)]
      rfl
  apply h
  intro cell hcell
  exact mem_clear size (Array.mem_toList_iff.1 hcell)

end Chart
end ChartParsing
