import ChartParsing.SortedSearch
import Mathlib.Tactic.Set
import Mathlib.Tactic.SplitIfs
import Mathlib.Order.Basic

/-!
# Searches find the boundary

A search over a condition that holds on an initial part only ends where the condition
stops. An element of an increasing sequence is therefore found exactly where it is.
Sorting without repetitions leaves no element twice.
-/

namespace ChartParsing.SortedSearch

/-- Below the boundary the condition holds, and from it on it fails. -/
theorem boundary_spec {holds : Nat → Bool} {lo hi : Nat} (h : lo ≤ hi)
    (hinit : ∀ i j, lo ≤ i → i ≤ j → j < hi → holds j = true → holds i = true) {i : Nat}
    (hlo : lo ≤ i) (hhi : i < hi) : holds i = true ↔ i < boundary holds lo hi := by
  fun_induction boundary holds lo hi with
  | case1 lo hi hlt mid hm ih =>
    have hmid : lo ≤ mid ∧ mid < hi := by omega
    rcases Nat.lt_or_ge mid i with hi' | hi'
    · exact ih (by omega) (fun a b ha => hinit a b (by omega)) hi' hhi
    · have hb := (boundary_mem holds (show mid + 1 ≤ hi by omega)).1
      exact ⟨fun _ => by omega, fun _ => hinit i mid hlo hi' hmid.2 hm⟩
  | case2 lo hi hlt mid hm ih =>
    have hmid : lo ≤ mid ∧ mid < hi := by omega
    rcases Nat.lt_or_ge i mid with hi' | hi'
    · exact ih (by omega) (fun a b ha hab hb => hinit a b ha hab (by omega)) hlo hi'
    · have hb := (boundary_mem holds (show lo ≤ mid by omega)).2
      constructor
      · intro hi''
        exact absurd (hinit mid i hmid.1 hi' hhi hi'') hm
      · intro hlt'
        omega
  | case3 lo hi hge => omega

section Search

variable {α : Type} [LT α] [DecidableLT α] [DecidableEq α]

/-- The part of a sequence from `lo` to `hi` has elements, and they increase. -/
structure Increasing (at? : Nat → Option α) (lo hi : Nat) : Prop where
  isSome : ∀ i, lo ≤ i → i < hi → (at? i).isSome
  lt : ∀ i j a b, lo ≤ i → i < j → j < hi → at? i = some a → at? j = some b → a < b

/-- An element is found where it is, if the order is that of natural numbers. -/
theorem find?_eq_some {rank : α → Nat} (hrank : ∀ a b : α, a < b ↔ rank a < rank b)
    {at? : Nat → Option α} {lo hi : Nat} (h : lo ≤ hi) (hinc : Increasing at? lo hi) (key : α)
    (i : Nat) : find? key at? lo hi = some i ↔ lo ≤ i ∧ i < hi ∧ at? i = some key := by
  have hholds : ∀ i, (fun i => (at? i).any (· < key)) i = true ↔
      ∃ a, at? i = some a ∧ a < key := by
    intro i
    dsimp only
    rw [Option.any_eq_true]
    simp only [decide_eq_true_iff]
  unfold find?
  generalize (fun i => (at? i).any (· < key)) = holds at hholds
  have hinit : ∀ i j, lo ≤ i → i ≤ j → j < hi → holds j = true → holds i = true := by
    intro i j hi hij hj hb
    rw [hholds] at hb ⊢
    obtain ⟨b, hbj, hbk⟩ := hb
    obtain ⟨a, hai⟩ := Option.isSome_iff_exists.1 (hinc.isSome i hi (by omega))
    refine ⟨a, hai, ?_⟩
    rcases Nat.lt_or_eq_of_le hij with hij | rfl
    · have hab := hinc.lt i j a b hi hij hj hai hbj
      rw [hrank] at hab hbk ⊢
      omega
    · rw [hbj] at hai
      rwa [← Option.some.inj hai]
  have hmem := boundary_mem holds h
  dsimp only
  constructor
  · intro hf
    split_ifs at hf with hb
    obtain rfl := Option.some.inj hf
    exact ⟨hmem.1, hb⟩
  · rintro ⟨hlo, hhi, hi'⟩
    -- the boundary is not past the key, and what is before the key is below it
    have hnot : ¬i < boundary holds lo hi := by
      rw [← boundary_spec h hinit hlo hhi, hholds]
      rintro ⟨a, ha, hak⟩
      rw [hi'] at ha
      rw [← Option.some.inj ha, hrank] at hak
      omega
    have hb : boundary holds lo hi = i := by
      by_contra hne
      have hlt : boundary holds lo hi < i := by omega
      have hfail : ¬boundary holds lo hi < boundary holds lo hi := Nat.lt_irrefl _
      rw [← boundary_spec h hinit hmem.1 (by omega), hholds] at hfail
      obtain ⟨a, ha⟩ := Option.isSome_iff_exists.1 (hinc.isSome _ hmem.1 (by omega))
      exact hfail ⟨a, ha, hinc.lt _ i a key hmem.1 hlt hhi ha hi'⟩
    rw [hb, if_pos ⟨hhi, hi'⟩]

end Search

/-! ## Sorting without repetitions -/

variable {α : Type}

theorem dropRepeats_cons [DecidableEq α] (x : α) (xs : List α) : dropRepeats (x :: xs) =
    if (dropRepeats xs).head? = some x then dropRepeats xs else x :: dropRepeats xs := rfl

theorem head?_dropRepeats [DecidableEq α] (xs : List α) : (dropRepeats xs).head? = xs.head? := by
  cases xs with
  | nil => rfl
  | cons x xs =>
    rw [dropRepeats_cons]
    split_ifs with h
    · rw [h]
      rfl
    · rfl

theorem nodup_dropRepeats [LE α] [DecidableEq α]
    (antisymm : ∀ x y : α, x ≤ y → y ≤ x → x = y) {xs : List α}
    (h : xs.Pairwise fun x y => x ≤ y) : (dropRepeats xs).Nodup := by
  induction xs with
  | nil => exact List.nodup_nil
  | cons x xs ih =>
    obtain ⟨hx, hxs⟩ := List.pairwise_cons.1 h
    rw [dropRepeats_cons]
    split_ifs with hhead
    · exact ih hxs
    · refine List.nodup_cons.2 ⟨fun hmem => hhead ?_, ih hxs⟩
      -- a later copy would be pressed against the head
      rw [mem_dropRepeats] at hmem
      rw [head?_dropRepeats]
      cases xs with
      | nil => cases hmem
      | cons y ys =>
        have hyx : y ≤ x := by
          rcases List.mem_cons.1 hmem with rfl | hmem
          · exact hx _ List.mem_cons_self
          · exact (List.pairwise_cons.1 hxs).1 x hmem
        rw [List.head?_cons, antisymm x y (hx y List.mem_cons_self) hyx]

theorem dropRepeats_sublist [DecidableEq α] (xs : List α) : (dropRepeats xs).Sublist xs := by
  induction xs with
  | nil => exact List.Sublist.refl _
  | cons x xs ih =>
    rw [dropRepeats_cons]
    split_ifs
    · exact ih.cons x
    · exact ih.cons_cons x

/-- A sorted list without repetitions is sorted. -/
theorem pairwise_sortedDistinct [LE α] [DecidableLE α] [DecidableEq α]
    (trans : ∀ x y z : α, x ≤ y → y ≤ z → x ≤ z) (total : ∀ x y : α, x ≤ y ∨ y ≤ x)
    (xs : List α) : (sortedDistinct xs).Pairwise fun x y => x ≤ y := by
  have h : (xs.mergeSort fun x y => decide (x ≤ y)).Pairwise fun x y => decide (x ≤ y) = true := by
    apply List.pairwise_mergeSort
    · simpa using trans
    · simpa using total
  exact (h.sublist (dropRepeats_sublist _)).imp fun h => by simpa using h

/-- The elements of a sorted list without repetitions differ. -/
theorem nodup_sortedDistinct [LE α] [DecidableLE α] [DecidableEq α]
    (trans : ∀ x y z : α, x ≤ y → y ≤ z → x ≤ z)
    (total : ∀ x y : α, x ≤ y ∨ y ≤ x) (antisymm : ∀ x y : α, x ≤ y → y ≤ x → x = y)
    (xs : List α) : (sortedDistinct xs).Nodup := by
  apply nodup_dropRepeats antisymm
  have h : (xs.mergeSort fun x y => decide (x ≤ y)).Pairwise fun x y => decide (x ≤ y) = true := by
    apply List.pairwise_mergeSort
    · simpa using trans
    · simpa using total
  exact h.imp fun h => by simpa using h

/-- A sorted list without repetitions increases. -/
theorem increasing_sortedDistinct [LE α] [DecidableLE α] [DecidableEq α]
    (trans : ∀ x y z : α, x ≤ y → y ≤ z → x ≤ z)
    (total : ∀ x y : α, x ≤ y ∨ y ≤ x) (antisymm : ∀ x y : α, x ≤ y → y ≤ x → x = y)
    (xs : List α) : (sortedDistinct xs).Pairwise fun x y => x ≤ y ∧ x ≠ y :=
  (pairwise_sortedDistinct trans total xs).and (nodup_sortedDistinct trans total antisymm xs)

end ChartParsing.SortedSearch
