import ChartParsing.Proofs.Packing.Slots
import ChartParsing.Proofs.SortedSearch
import Mathlib.Data.List.Perm.Basic

/-!
# Packings of the same pairs

A packing is built for a set of pairs: in which order they come, and how often, makes no
difference. The strategies that look at the pairs sort them first.
-/

namespace ChartParsing

/-- A sorted list without repetitions is determined by its elements. -/
theorem SortedSearch.sortedDistinct_congr {α : Type} [LE α] [DecidableLE α] [DecidableEq α]
    (trans : ∀ x y z : α, x ≤ y → y ≤ z → x ≤ z) (total : ∀ x y : α, x ≤ y ∨ y ≤ x)
    (antisymm : ∀ x y : α, x ≤ y → y ≤ x → x = y) {xs ys : List α}
    (h : ∀ x, x ∈ xs ↔ x ∈ ys) : sortedDistinct xs = sortedDistinct ys := by
  have hperm : (sortedDistinct xs).Perm (sortedDistinct ys) := by
    apply (List.perm_ext_iff_of_nodup (nodup_sortedDistinct trans total antisymm xs)
      (nodup_sortedDistinct trans total antisymm ys)).2
    intro x
    rw [mem_sortedDistinct, mem_sortedDistinct, h]
  apply hperm.eq_of_pairwise
  · intro x y _ _
    exact antisymm x y
  · exact pairwise_sortedDistinct trans total xs
  · exact pairwise_sortedDistinct trans total ys

variable {pairs pairs' : List (UInt16 × UInt16)} (h : ∀ pair, pair ∈ pairs ↔ pair ∈ pairs')

include h

theorem BitVectorPacking.build_congr (bounds : ClassBounds) :
    build bounds pairs = build bounds pairs' := by
  unfold build
  cases ShiftPacking.build bounds with
  | error e => rfl
  | ok base =>
    refine congrArg (fun keys => Except.ok (⟨base, List.toArray keys⟩ : BitVectorPacking)) ?_
    apply SortedSearch.sortedDistinct_congr (fun _ _ _ => UInt32.le_trans) UInt32.le_total
      fun _ _ => UInt32.le_antisymm
    intro key
    simp only [List.mem_filterMap, h]

theorem PairHash.build_congr (lefts : Interval) : build lefts pairs = build lefts pairs' := by
  have hrights (left : UInt16) :
      SortedSearch.sortedDistinct ((siblings pairs).getD left []) =
        SortedSearch.sortedDistinct ((siblings pairs').getD left []) := by
    apply SortedSearch.sortedDistinct_congr (fun _ _ _ => UInt16.le_trans) UInt16.le_total
      fun _ _ => UInt16.le_antisymm
    intro right
    rw [mem_siblings, mem_siblings, h]
  have hstep : Draft.addLeft (fun left => (siblings pairs).getD left []) =
      Draft.addLeft fun left => (siblings pairs').getD left [] := by
    funext d left
    unfold Draft.addLeft
    dsimp only
    rw [hrights left]
  unfold build
  dsimp only
  rw [hstep]

theorem Packing.build_congr (kind : PackingKind) (bounds : ClassBounds) :
    build kind bounds pairs = build kind bounds pairs' := by
  cases kind with
  | shift => rfl
  | bitVector => rw [build, build, BitVectorPacking.build_congr h]
  | perfectHash => rw [build, build, PairHash.build_congr h]

end ChartParsing
