import ChartParsing.Proofs.Chart.Places
import ChartParsing.Proofs.Outside.Raising
import Mathlib.Algebra.BigOperators.Group.List.Basic
import Mathlib.Algebra.Ring.Nat
import Mathlib.Data.Set.Function

/-!
# Charts as maps from spans

The places of cells count the spans of a sentence in the order of their first and then of their
last words, which is the order in which the cells for outside scores are laid out. A chart that is
cleared and filled again and again is therefore a map from spans to cells: it has at each span what
was last put there since it was last cleared, and nothing of earlier sentences.
-/

namespace ChartParsing

namespace Span

/-- The order of the rows: spans that start earlier come first, and of those with one start the
shorter. -/
def ComesBefore (s t : Span) : Prop :=
  s.start < t.start ∨ (s.start = t.start ∧ s.stop < t.stop)

theorem index_lt_of_comesBefore {size : Nat} {s t : Span} (hs : s.within size = true)
    (ht : t.within size = true) (h : s.ComesBefore t) : s.index size < t.index size := by
  rw [index_eq hs, index_eq ht]
  rw [within_iff] at hs ht
  rcases h with hstart | ⟨hstart, hstop⟩
  · have hrow := rowStart_mono size (UInt16.lt_iff_toNat_lt.1 hstart)
    rw [rowStart] at hrow
    omega
  · rw [UInt16.lt_iff_toNat_lt] at hstop
    rw [hstart] at hs ⊢
    omega

theorem comesBefore_total {s t : Span} (h : s ≠ t) : s.ComesBefore t ∨ t.ComesBefore s := by
  have hne : s.start.toNat = t.start.toNat → s.stop.toNat ≠ t.stop.toNat :=
    fun hstart hstop => h (ext_toNat hstart hstop)
  simp only [ComesBefore, UInt16.lt_iff_toNat_lt, ← UInt16.toNat_inj]
  omega

/-- Places are in the order of the rows. -/
theorem index_lt_iff {size : Nat} {s t : Span} (hs : s.within size = true)
    (ht : t.within size = true) : s.index size < t.index size ↔ s.ComesBefore t := by
  constructor
  · intro hlt
    have hne : s ≠ t := by
      rintro rfl
      omega
    rcases comesBefore_total hne with h | h
    · exact h
    · have := index_lt_of_comesBefore ht hs h
      omega
  · exact index_lt_of_comesBefore hs ht

/-- A span of a sentence has the number of a place, and every such number is that of a span. -/
theorem bijOn_index {size : Nat} (h : size ≤ 65535) :
    Set.BijOn (index size) {s | s.within size = true} (Set.Iio (Chart.spanCount size)) := by
  refine ⟨?_, ?_, ?_⟩
  · intro s hs
    exact index_lt hs
  · intro s hs t ht heq
    exact index_injective hs ht heq
  · intro i hi
    obtain ⟨s, hs, rfl⟩ := exists_of_lt h hi
    exact ⟨s, hs, rfl⟩

/-- No subtraction on the way to the place of a span takes more than there is, and no number on the
way leaves 64 bits. -/
structure Unwrapped (size : Nat) (s : Span) : Prop where
  rows : s.start.toNat * (s.start.toNat - 1) / 2 ≤ s.start.toNat * size
  start : s.start.toNat ≤
    s.start.toNat * size - s.start.toNat * (s.start.toNat - 1) / 2 + s.stop.toNat
  one : 1 ≤ s.start.toNat * size - s.start.toNat * (s.start.toNat - 1) / 2 + s.stop.toNat
    - s.start.toNat
  bounded : s.start.toNat * size + s.stop.toNat < 2 ^ 64

theorem unwrapped_of_within {size : Nat} {s : Span} (hsize : size ≤ 65535)
    (h : s.within size = true) : Unwrapped size s := by
  rw [within_iff] at h
  have hrow := rowStart_eq size s.start.toNat (by omega)
  have hproduct : s.start.toNat * size ≤ 65535 * 65535 := Nat.mul_le_mul (by omega) hsize
  constructor
  · omega
  · omega
  · omega
  · omega

theorem mem_all_iff {size : Nat} (h : size ≤ 65535) {s : Span} :
    s ∈ all size ↔ s.within size = true := by
  constructor
  · intro hmem
    obtain ⟨i, hget⟩ := List.mem_iff_getElem?.1 hmem
    have hi : i < Chart.spanCount size := by
      rw [← length_all]
      exact (List.getElem?_eq_some_iff.1 hget).1
    obtain ⟨t, ht, rfl⟩ := exists_of_lt h hi
    rw [getElem?_all ht] at hget
    rwa [← Option.some.inj hget]
  · intro hs
    exact List.mem_of_getElem? (getElem?_all hs)

/-- Listing the spans counts through their places. -/
theorem map_index_all {size : Nat} (h : size ≤ 65535) :
    (all size).map (index size) = List.range (Chart.spanCount size) := by
  apply List.ext_getElem?
  intro i
  rcases Nat.lt_or_ge i (Chart.spanCount size) with hi | hi
  · obtain ⟨s, hs, rfl⟩ := exists_of_lt h hi
    simp [getElem?_all hs, hi]
  · simp [length_all, hi]

/-- Places count the spans of a sentence row by row. -/
structure Counted (size : Nat) : Prop where
  bijOn : Set.BijOn (index size) {s | s.within size = true} (Set.Iio (Chart.spanCount size))
  lt_iff : ∀ s t : Span, s.within size = true → t.within size = true →
    (s.index size < t.index size ↔ s.ComesBefore t)
  unwrapped : ∀ s : Span, s.within size = true → Unwrapped size s
  mem_all : ∀ s, s ∈ all size ↔ s.within size = true
  map_all : (all size).map (index size) = List.range (Chart.spanCount size)

theorem counted_of_le {size : Nat} (h : size ≤ 65535) : Counted size where
  bijOn := bijOn_index h
  lt_iff := fun _ _ hs ht => index_lt_iff hs ht
  unwrapped := fun _ hs => unwrapped_of_within h hs
  mem_all := fun _ => mem_all_iff h
  map_all := map_index_all h

end Span

namespace Chart

/-! ## Cells at spans -/

/-- A chart for a number of words has the given cell at each span. -/
structure Lays (c : Chart) (words : Nat) (placed : Span → Cell) : Prop where
  sized : c.Sized
  size : c.size = words
  size_le : words ≤ 65535
  cell : ∀ s, s.within words = true → c.cell s = placed s

variable {c : Chart} {size : Nat} {placed : Span → Cell}

theorem Lays.getElem?_cells (h : c.Lays size placed) {s : Span} (hs : s.within size = true) :
    c.cells[s.index size]? = some (placed s) := by
  obtain ⟨hsized, rfl, -, hcell⟩ := h
  have hlt : s.index c.size < c.cells.size := by
    rw [hsized]
    exact Span.index_lt hs
  have hget := hcell s hs
  simp_all [Chart.cell, Chart.index]

/-- The cells that are stored are those of the spans, in their order. -/
theorem Lays.toList_cells (h : c.Lays size placed) :
    c.cells.toList = (Span.all size).map placed := by
  have hcount : c.cells.size = spanCount size := by
    rw [h.sized, h.size]
  apply List.ext_getElem?
  intro i
  rcases Nat.lt_or_ge i (spanCount size) with hi | hi
  · obtain ⟨s, hs, rfl⟩ := Span.exists_of_lt h.size_le hi
    simp [h.getElem?_cells hs, Span.getElem?_all hs]
  · simp [hcount, Span.length_all, hi]

theorem Lays.population_eq (h : c.Lays size placed) :
    c.population = ((Span.all size).map fun s => (placed s).size).sum := by
  rw [population, h.toList_cells, List.map_map]
  rfl

theorem Lays.top?_eq (h : c.Lays size placed) :
    c.top? = if size = 0 then none else some (placed ⟨0, UInt16.ofNat size⟩) := by
  have hle := h.size_le
  unfold top?
  rw [h.size]
  by_cases hzero : size = 0
  · simp [hzero]
  · have hstop : (UInt16.ofNat size).toNat = size := Nat.mod_eq_of_lt (by omega)
    have hwhole : (⟨0, UInt16.ofNat size⟩ : Span).within size = true := by
      rw [Span.within_iff, hstop]
      exact ⟨Nat.pos_of_ne_zero hzero, Nat.le_refl _⟩
    simp only [hzero, Nat.pos_of_ne_zero hzero, if_true, if_false, whole, h.size, h.cell _ hwhole]

theorem lays_empty : Lays ∅ 0 fun _ => ∅ where
  sized := rfl
  size := rfl
  size_le := Nat.zero_le _
  cell := by
    intro s hs
    rw [Span.within_iff] at hs
    omega

/-- A cleared chart has empty cells for any number of words, whatever it was used for before. -/
theorem lays_clear (c : Chart) (hsize : size ≤ 65535) : (c.clear size).Lays size fun _ => ∅ where
  sized := sized_clear size
  size := rfl
  size_le := hsize
  cell := fun s _ => cell_clear size s

/-- The cell at one span is exchanged, and the one that was there is given back. -/
theorem Lays.replace (h : c.Lays size placed) {s : Span} (hs : s.within size = true) (cell : Cell) :
    (c.replace s cell).1 = placed s ∧
      (c.replace s cell).2.Lays size (Function.update placed s cell) := by
  obtain ⟨hsized, rfl, hle, hcell⟩ := h
  refine ⟨hcell s hs, hsized.replace s cell, rfl, hle, ?_⟩
  intro t ht
  by_cases heq : t = s
  · subst heq
    rw [cell_replace_self hsized hs, Function.update_self]
  · rw [cell_replace_ne hs ht (Ne.symm heq), hcell t ht, Function.update_of_ne heq]

/-! ## Histories -/

/-- What is done to a chart. -/
inductive Call
  /-- The chart is prepared for a sentence of so many words. -/
  | clear (size : Nat)
  /-- A cell is put at a span. -/
  | replace (s : Span) (cell : Cell)

/-- The calls on a chart, the latest first. -/
abbrev History := List Call

/-- The chart after these calls on a new one. -/
def after : History → Chart
  | [] => ∅
  | .clear size :: earlier => (after earlier).clear size
  | .replace s cell :: earlier => ((after earlier).replace s cell).2

/-- The number of words for which the chart was last cleared. -/
def lastSize : History → Nat
  | [] => 0
  | .clear size :: _ => size
  | .replace _ _ :: earlier => lastSize earlier

/-- The cell last put at a span since the chart was last cleared. -/
def lastPlaced (s : Span) : History → Option Cell
  | [] => none
  | .clear _ :: _ => none
  | .replace t cell :: earlier => if t = s then some cell else lastPlaced s earlier

/-- Sentences are at most as long as positions can be, and cells are put at their spans. -/
def Admissible : History → Prop
  | [] => True
  | .clear size :: earlier => size ≤ 65535 ∧ Admissible earlier
  | .replace s _ :: earlier => s.within (lastSize earlier) = true ∧ Admissible earlier

/-- After any calls a chart has at each span what was last put there. -/
theorem lays_after {history : History} (h : Admissible history) :
    (after history).Lays (lastSize history) fun s => (lastPlaced s history).getD ∅ := by
  induction history with
  | nil => exact lays_empty
  | cons next earlier ih =>
    cases next with
    | clear size => exact lays_clear (after earlier) h.1
    | replace s cell =>
      obtain ⟨hs, hearlier⟩ := h
      obtain ⟨-, hlays⟩ := (ih hearlier).replace hs cell
      refine ⟨hlays.sized, hlays.size, hlays.size_le, fun t ht => ?_⟩
      rw [after, hlays.cell t ht, lastPlaced, Function.update_apply]
      by_cases heq : s = t
      · simp [heq]
      · simp [heq, Ne.symm heq]

/-- A chart for a number of words answers as the map from spans to cells does. -/
structure Maps (c : Chart) (words : Nat) (placed : Span → Cell) : Prop where
  size : c.size = words
  cell : ∀ s, s.within words = true → c.cell s = placed s
  displaced : ∀ s cell, s.within words = true → (c.replace s cell).1 = placed s
  exchanged : ∀ s cell, s.within words = true → ∀ t, t.within words = true →
    (c.replace s cell).2.cell t = if t = s then cell else placed t
  population : c.population = ((Span.all words).map fun s => (placed s).size).sum
  top : c.top? = if words = 0 then none else some (placed ⟨0, UInt16.ofNat words⟩)

theorem Lays.maps (h : c.Lays size placed) : c.Maps size placed where
  size := h.size
  cell := h.cell
  displaced := fun _ cell hs => (h.replace hs cell).1
  exchanged := by
    intro s cell hs t ht
    rw [(h.replace hs cell).2.cell t ht, Function.update_apply]
  population := h.population_eq
  top := h.top?_eq

/-- The spans of a sentence are counted row by row without gaps, and cells for outside scores are
laid out in that order. After any calls on a chart, for sentences of whatever sizes, it is the map
from spans to the cells that were last put there since it was last cleared. -/
theorem after_maps :
    (∀ size ≤ 65535, Span.Counted size ∧ ∀ c : Chart, c.size = size →
      (OutsideChart.unreached c).cells.size = spanCount size ∧
        ∀ s, s.within size = true → (OutsideChart.unreached c).cells[s.index size]? =
          some (OutsideCell.ofCell (c.cell s))) ∧
      ∀ history, Admissible history →
        (after history).Maps (lastSize history) fun s => (lastPlaced s history).getD ∅ := by
  refine ⟨fun size hsize => ⟨Span.counted_of_le hsize, ?_⟩, fun history h => (lays_after h).maps⟩
  rintro c rfl
  have hfits := OutsideChart.fits_unreached c
  refine ⟨hfits.count, fun s hs => ?_⟩
  rw [← OutsideChart.cell_unreached hs]
  exact hfits.getElem?_cells hs

/-- A chart of three words is cleared for two: of the two cells put on it one is left. -/
theorem after_maps_shorter :
    let entry (nt : UInt16) : ChartEntry := ⟨nt, -1, .lexical 0, 0⟩
    let history : History := [.replace ⟨0, 1⟩ ⟨#[entry 2]⟩, .clear 2,
      .replace ⟨1, 2⟩ ⟨#[entry 4]⟩, .clear 3]
    (Span.all 3).map (Span.index 3) = List.range 6 ∧ Admissible history ∧
      (after history).population = 1 ∧ (after history).cell ⟨1, 2⟩ = ∅ ∧
      (after history).top? = some ∅ := by
  intro entry history
  have hadmissible : Admissible history := by simp [history, Admissible, lastSize, Span.within_iff]
  have hmaps := after_maps.2 history hadmissible
  exact ⟨(after_maps.1 3 (by decide)).1.map_all, hadmissible, hmaps.population.trans rfl,
    hmaps.cell ⟨1, 2⟩ (by decide), hmaps.top⟩

end Chart
end ChartParsing
