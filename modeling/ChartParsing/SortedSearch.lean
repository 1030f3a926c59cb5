/-!
# Searching sorted arrays

One bisection serves both to find where a condition stops holding and to look an
element up. Beside it stands the sorted list without repetitions that such
arrays are built from.
-/

namespace ChartParsing.SortedSearch

/-- The first index from `lo` on, below `hi`, at which `holds` fails, provided
that it holds on an initial part of that range and nowhere after it; `hi` if it
never fails. -/
@[specialize] def boundary (holds : Nat → Bool) (lo hi : Nat) : Nat :=
  if lo < hi then
    let mid := (lo + hi) / 2
    if holds mid then boundary holds (mid + 1) hi else boundary holds lo mid
  else lo
termination_by hi - lo
decreasing_by all_goals omega

theorem boundary_mem (holds : Nat → Bool) {lo hi : Nat} (h : lo ≤ hi) :
    lo ≤ boundary holds lo hi ∧ boundary holds lo hi ≤ hi := by
  fun_induction boundary holds lo hi with
  | case1 lo hi hlt mid hm ih => have := ih (by omega); omega
  | case2 lo hi hlt mid hm ih => have := ih (by omega); omega
  | case3 lo hi hge => omega

/-- The index at which `key` is found in the part of a sorted sequence from `lo`
to `hi`. -/
@[inline] def find? {α : Type} [LT α] [DecidableLT α] [DecidableEq α]
    (key : α) (at? : Nat → Option α) (lo hi : Nat) : Option Nat :=
  let i := boundary (fun i => (at? i).any (· < key)) lo hi
  if i < hi ∧ at? i = some key then some i else none

/-- Drops each element equal to the one after it. -/
def dropRepeats {α : Type} [DecidableEq α] (xs : List α) : List α :=
  xs.foldr (fun x kept => if kept.head? = some x then kept else x :: kept) []

def sortedDistinct {α : Type} [LE α] [DecidableLE α] [DecidableEq α] (xs : List α) : List α :=
  dropRepeats (xs.mergeSort fun x y => decide (x ≤ y))

@[simp] theorem dropRepeats_nil {α : Type} [DecidableEq α] : dropRepeats ([] : List α) = [] := rfl

theorem mem_dropRepeats {α : Type} [DecidableEq α] (x : α) (xs : List α) :
    x ∈ dropRepeats xs ↔ x ∈ xs := by
  induction xs with
  | nil => simp
  | cons y ys ih =>
    have h : dropRepeats (y :: ys) =
        if (dropRepeats ys).head? = some y then dropRepeats ys else y :: dropRepeats ys := rfl
    rw [h]
    split
    · rename_i hy
      have : y ∈ dropRepeats ys := List.mem_of_head? hy
      simp only [List.mem_cons, ih]
      constructor
      · exact Or.inr
      · rintro (rfl | h)
        · exact ih.1 this
        · exact h
    · simp [ih]

theorem mem_sortedDistinct {α : Type} [LE α] [DecidableLE α] [DecidableEq α] (x : α)
    (xs : List α) : x ∈ sortedDistinct xs ↔ x ∈ xs := by
  simp [sortedDistinct, mem_dropRepeats]

end ChartParsing.SortedSearch
