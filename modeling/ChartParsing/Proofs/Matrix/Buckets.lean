import ChartParsing.Matrix.Triple
import Mathlib.Algebra.Ring.Nat
import Mathlib.Data.List.Induction
import Mathlib.Data.UInt
import Mathlib.Order.Basic
import Mathlib.Tactic.Set
import Mathlib.Tactic.SplitIfs

/-!
# Buckets of a sorted sequence

The offsets count the entries that come before each bucket. In a sorted sequence the
entries between two consecutive offsets are those of one bucket.
-/

namespace ChartParsing

/-- In a sorted list the elements of one kind stand between those below it and those
above it. -/
theorem extract_countP_eq_filter {α : Type} (f : α → Nat) {xs : List α}
    (hsorted : xs.Pairwise fun x y => f x ≤ f y) (c : Nat) :
    xs.extract (xs.countP (f · < c)) (xs.countP (f · < c + 1)) = xs.filter (f · = c) := by
  induction xs with
  | nil => simp
  | cons x xs ih =>
    obtain ⟨hx, hsorted⟩ := List.pairwise_cons.1 hsorted
    have ih := ih hsorted
    rcases Nat.lt_trichotomy (f x) c with h | h | h
    · rw [List.countP_cons_of_pos (by simpa using h),
        List.countP_cons_of_pos (by simp; omega), List.filter_cons_of_neg (by simp; omega), ← ih]
      simp [List.extract_eq_take_drop]
    · have hzero : xs.countP (f · < c) = 0 := by
        rw [List.countP_eq_zero]
        intro y hy
        have := hx y hy
        simp
        omega
      rw [List.countP_cons_of_neg (by simp; omega), List.countP_cons_of_pos (by simp; omega),
        List.filter_cons_of_pos (by simpa using h), ← ih, hzero]
      simp [List.extract_eq_take_drop]
    · have hnone : ∀ y ∈ x :: xs, c < f y := by
        intro y hy
        rcases List.mem_cons.1 hy with rfl | hy
        · exact h
        · have := hx y hy
          omega
      have hzero : (x :: xs).countP (f · < c + 1) = 0 := by
        rw [List.countP_eq_zero]
        intro y hy
        have := hnone y hy
        simp
        omega
      have hfilter : (x :: xs).filter (f · = c) = [] := by
        rw [List.filter_eq_nil_iff]
        intro y hy
        have := hnone y hy
        simp
        omega
      rw [hzero, hfilter]
      simp [List.extract_eq_take_drop]

namespace Triple

/-- How often each bucket occurs, one place further up. -/
theorem counts_spec (buckets : List Nat) (counts : Array UInt32) :
    (buckets.foldl (fun counts b => counts.modify (b + 1) (· + 1)) counts).size = counts.size ∧
      ∀ j < counts.size,
        (buckets.foldl (fun counts b => counts.modify (b + 1) (· + 1)) counts).getD j 0
          = counts.getD j 0 + UInt32.ofNat (buckets.countP (· + 1 = j)) := by
  induction buckets generalizing counts with
  | nil => simp
  | cons b buckets ih =>
    obtain ⟨hsize, hget⟩ := ih (counts.modify (b + 1) (· + 1))
    rw [Array.size_modify] at hsize hget
    refine ⟨hsize, fun j hj => ?_⟩
    have hmodify : (counts.modify (b + 1) (· + 1)).getD j 0
        = counts.getD j 0 + UInt32.ofNat (if b + 1 = j then 1 else 0) := by
      rw [Array.getD_eq_getD_getElem?, Array.getD_eq_getD_getElem?, Array.getElem?_modify]
      split_ifs with h
      · simp [Array.getElem?_eq_getElem hj]
      · simp
    rw [List.foldl_cons, hget j hj, List.countP_cons, hmodify, UInt32.ofNat_add,
      UInt32.add_assoc, UInt32.add_comm (UInt32.ofNat (if b + 1 = j then 1 else 0))]
    simp only [decide_eq_true_iff]

/-- Running sums. -/
theorem sums_spec (ns : List UInt32) :
    let result :=
      ns.foldl (fun (s : Array UInt32 × UInt32) n => (s.1.push (s.2 + n), s.2 + n)) (#[], 0)
    result.2 = ns.sum ∧ result.1.size = ns.length ∧
      ∀ k < ns.length, result.1.getD k 0 = (ns.take (k + 1)).sum := by
  dsimp only
  induction ns using List.reverseRecOn with
  | nil => simp
  | append_singleton ns n ih =>
    obtain ⟨hsum, hsize, hget⟩ := ih
    rw [List.foldl_append]
    simp only [List.foldl_cons, List.foldl_nil]
    refine ⟨by simp [hsum], by simp [hsize], fun k hk => ?_⟩
    rw [List.length_append, List.length_singleton] at hk
    rcases Nat.lt_or_ge k ns.length with h | h
    · rw [List.take_append_of_le_length (by omega), ← hget k h]
      simp [Array.getElem?_push, hsize, Nat.ne_of_lt h]
    · obtain rfl : k = ns.length := by omega
      rw [List.take_of_length_le (by simp), Array.getD_eq_getD_getElem?, Array.getElem?_push,
        if_pos hsize.symm]
      simp [hsum]

theorem countP_lt_succ (buckets : List Nat) (k : Nat) :
    buckets.countP (· < k + 1) = buckets.countP (· < k) + buckets.countP (· + 1 = k + 1) := by
  induction buckets with
  | nil => simp
  | cons b buckets ih =>
    simp only [List.countP_cons, decide_eq_true_iff]
    split_ifs <;> omega

/-- The first numbers of occurrences add up to the number of lower buckets. -/
theorem sum_take_counts {counts : List UInt32} {buckets : List Nat}
    (h : ∀ j < counts.length, counts.getD j 0 = UInt32.ofNat (buckets.countP (· + 1 = j))) {k : Nat}
    (hk : k < counts.length) :
    (counts.take (k + 1)).sum = UInt32.ofNat (buckets.countP (· < k)) := by
  induction k with
  | zero =>
    have h0 := h 0 hk
    cases counts with
    | nil => simp at hk
    | cons n counts => simpa using h0
  | succ k ih =>
    have hget := h (k + 1) hk
    rw [List.getD_eq_getElem?_getD, List.getElem?_eq_getElem hk, Option.getD_some] at hget
    rw [List.take_succ_eq_append_getElem hk, List.sum_append, ih (by omega), countP_lt_succ,
      UInt32.ofNat_add]
    simp [hget]

/-- Each offset is the number of entries in lower buckets, in 32 bits. -/
theorem offsets_spec (count : Nat) (buckets : Array Nat) :
    (offsets count buckets).size = count + 1 ∧
      ∀ k ≤ count,
        (offsets count buckets).getD k 0 = UInt32.ofNat (buckets.toList.countP (· < k)) := by
  obtain ⟨hsize, hget⟩ := counts_spec buckets.toList (Array.replicate (count + 1) 0)
  rw [Array.size_replicate] at hsize hget
  set counts := buckets.toList.foldl (fun counts b => counts.modify (b + 1) (· + 1))
    (Array.replicate (count + 1) (0 : UInt32)) with hcounts
  have hoffsets : offsets count buckets
      = (counts.toList.foldl (fun (s : Array UInt32 × UInt32) n => (s.1.push (s.2 + n), s.2 + n))
          (#[], 0)).1 := by
    rw [offsets, ← Array.foldl_toList, ← Array.foldl_toList]
  obtain ⟨-, hsize', hget'⟩ := sums_spec counts.toList
  rw [Array.length_toList, hsize] at hsize' hget'
  rw [hoffsets]
  refine ⟨hsize', fun k hk => ?_⟩
  rw [hget' k (by omega)]
  apply sum_take_counts
  · intro j hj
    rw [Array.length_toList, hsize] at hj
    have h := hget j hj
    rw [Array.getD_eq_getD_getElem?, Array.getD_eq_getD_getElem?] at h
    rw [List.getD_eq_getElem?_getD, Array.getElem?_toList, h]
    simp [hj]
  · rw [Array.length_toList, hsize]
    omega

/-- Of fewer than 2^32 entries no offset overflows. -/
theorem toNat_offset {count : Nat} {buckets : Array Nat} (hsize : buckets.size < 2 ^ 32) {k : Nat}
    (hk : k ≤ count) :
    ((offsets count buckets).getD k 0).toNat = buckets.toList.countP (· < k) := by
  have hle : buckets.toList.countP (· < k) ≤ buckets.size := List.countP_le_length
  rw [(offsets_spec count buckets).2 k hk]
  exact Nat.mod_eq_of_lt (Nat.lt_of_le_of_lt hle hsize)

end Triple
end ChartParsing
