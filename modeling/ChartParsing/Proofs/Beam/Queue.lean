import ChartParsing.Beam.Queue
import Mathlib.Order.Basic
import Mathlib.Tactic.SplitIfs

/-!
# Queues that agree

A queue is never emptied but by moving its ends, so its arrays keep old entries past the
tail. Two queues agree if they hold the same entries before it. Whatever is done with them,
they go on to agree and give the same answers.
-/

namespace ChartParsing

namespace BeamQueue

/-- Two arrays reach as far as `n` and are the same up to there. -/
structure Same {α : Type} (n : Nat) (xs ys : Array α) : Prop where
  le_left : n ≤ xs.size
  le_right : n ≤ ys.size
  get : ∀ i < n, xs[i]? = ys[i]?

section Same

variable {α : Type} {n : Nat} {xs ys : Array α}

theorem Same.mono (h : Same n xs ys) {m : Nat} (hle : m ≤ n) : Same m xs ys :=
  ⟨Nat.le_trans hle h.le_left, Nat.le_trans hle h.le_right,
    fun i hi => h.get i (Nat.lt_of_lt_of_le hi hle)⟩

theorem same_zero (xs ys : Array α) : Same 0 xs ys :=
  ⟨Nat.zero_le _, Nat.zero_le _, fun _ hi => absurd hi (Nat.not_lt_zero _)⟩

theorem Same.getD (h : Same n xs ys) {i : Nat} (hi : i < n) (x : α) :
    xs.getD i x = ys.getD i x := by
  rw [Array.getD_eq_getD_getElem?, Array.getD_eq_getD_getElem?, h.get i hi]

theorem Same.set (h : Same n xs ys) {i : Nat} (x : α) :
    Same n (xs.setIfInBounds i x) (ys.setIfInBounds i x) := by
  refine ⟨by simpa using h.le_left, by simpa using h.le_right, fun j hj => ?_⟩
  rw [Array.getElem?_setIfInBounds, Array.getElem?_setIfInBounds, h.get j hj]
  have hxs := h.le_left
  have hys := h.le_right
  by_cases hij : i = j
  · rw [if_pos hij, if_pos hij, if_pos (by omega), if_pos (by omega)]
  · rw [if_neg hij, if_neg hij]

theorem getElem?_swap {i j : Nat} (hi : i < xs.size) (hj : j < xs.size) (k : Nat) :
    (xs.swapIfInBounds i j)[k]? = if k = i then xs[j]? else if k = j then xs[i]? else xs[k]? := by
  by_cases hk : k < xs.size
  · rw [Array.getElem?_eq_getElem (by simpa using hk), Array.getElem_swapIfInBounds]
    simp only [hi, hj, and_true]
    split_ifs with hki hkj
    · rw [Array.getElem?_eq_getElem hj]
    · rw [Array.getElem?_eq_getElem hi]
    · rw [Array.getElem?_eq_getElem hk]
  · rw [Array.getElem?_eq_none (by simpa using hk), if_neg (by omega), if_neg (by omega),
      Array.getElem?_eq_none (by omega)]

theorem Same.swap (h : Same n xs ys) {i j : Nat} (hi : i < n) (hj : j < n) :
    Same n (xs.swapIfInBounds i j) (ys.swapIfInBounds i j) := by
  have hxs := h.le_left
  have hys := h.le_right
  refine ⟨by simpa using hxs, by simpa using hys, fun k hk => ?_⟩
  rw [getElem?_swap (by omega) (by omega), getElem?_swap (by omega) (by omega), h.get i hi,
    h.get j hj, h.get k hk]

/-- Two arrays that get an element at an index are then the same up to it. -/
theorem Same.put (h : Same n xs ys) {i : Nat} (hi : i ≤ n) (hxs : i < xs.size)
    (hys : i < ys.size) (x : α) :
    Same (max n (i + 1)) (xs.setIfInBounds i x) (ys.setIfInBounds i x) := by
  have hleft := h.le_left
  have hright := h.le_right
  refine ⟨by simp; omega, by simp; omega, fun j hj => ?_⟩
  rw [Array.getElem?_setIfInBounds, Array.getElem?_setIfInBounds]
  by_cases hij : i = j
  · simp [hij, hij ▸ hxs, hij ▸ hys]
  · rw [if_neg hij, if_neg hij]
    exact h.get j (by omega)

@[simp] theorem size_padTo (size : Nat) (x : α) (xs : Array α) :
    (padTo size x xs).size = max xs.size size := by
  simp only [padTo, Array.size_append, Array.size_replicate]
  omega

theorem getElem?_padTo {i : Nat} (hi : i < xs.size) (size : Nat) (x : α) :
    (padTo size x xs)[i]? = xs[i]? := Array.getElem?_append_left hi

theorem padTo_of_le {size : Nat} (h : size ≤ xs.size) (x : α) : padTo size x xs = xs := by
  simp [BeamQueue.padTo, h]

theorem Same.padTo (h : Same n xs ys) (size : Nat) (x : α) :
    Same n (BeamQueue.padTo size x xs) (BeamQueue.padTo size x ys) := by
  have hleft := h.le_left
  have hright := h.le_right
  refine ⟨by simp; omega, by simp; omega, fun i hi => ?_⟩
  rw [getElem?_padTo (by omega), getElem?_padTo (by omega)]
  exact h.get i hi

end Same

/-- The arrays of a queue have a place for every entry that it may come to hold. -/
structure Roomy (q : BeamQueue) : Prop where
  nts : q.maxTail ≤ q.nts.size
  merits : q.maxTail ≤ q.merits.size

theorem Roomy.reserve_eq {q : BeamQueue} (h : q.Roomy) : q.reserve q.maxTail = q := by
  simp [reserve, padTo_of_le h.nts, padTo_of_le h.merits]

theorem roomy_clear (q : BeamQueue) (size : Nat) : (q.clear size).Roomy := by
  constructor <;> exact (Nat.le_max_right _ _).trans_eq (size_padTo _ _ _).symm

theorem roomy_setMaxSize (q : BeamQueue) (size : Nat) : (q.setMaxSize size).Roomy := by
  constructor <;> exact (Nat.le_max_right _ _).trans_eq (size_padTo _ _ _).symm

/-- Two queues have the same ends and the same entries before the tail. -/
structure Agree (q r : BeamQueue) : Prop where
  head : q.head = r.head
  tail : q.tail = r.tail
  maxTail : q.maxTail = r.maxTail
  le : q.head ≤ q.tail
  tail_le : q.tail ≤ q.maxTail
  left : q.Roomy
  right : r.Roomy
  nts : Same q.tail q.nts r.nts
  merits : Same q.tail q.merits r.merits

variable {q r : BeamQueue}

theorem agree_clear (q r : BeamQueue) (size : Nat) : Agree (q.clear size) (r.clear size) :=
  ⟨rfl, rfl, rfl, Nat.le_refl 0, Nat.zero_le _, roomy_clear q size, roomy_clear r size,
    same_zero _ _, same_zero _ _⟩

namespace Agree

theorem capacity (h : Agree q r) : q.capacity = r.capacity := by
  unfold BeamQueue.capacity
  rw [h.maxTail, h.head]

theorem setMaxSize (h : Agree q r) (size : Nat) :
    Agree (q.setMaxSize size) (r.setMaxSize size) := by
  have hleft := roomy_setMaxSize q size
  have hright := roomy_setMaxSize r size
  unfold BeamQueue.setMaxSize reserve at hleft hright ⊢
  dsimp only at hleft hright ⊢
  rw [← h.head, ← h.tail] at hright ⊢
  have hle := h.le
  exact ⟨rfl, rfl, rfl, by dsimp only; omega, Nat.min_le_right _ _, hleft, hright,
    (h.nts.mono (Nat.min_le_left _ _)).padTo _ _, (h.merits.mono (Nat.min_le_left _ _)).padTo _ _⟩

theorem sortUp {i : Nat} (h : Agree q r) (hi : i < q.tail) : Agree (q.sortUp i) (r.sortUp i) := by
  induction i generalizing q r with
  | zero => exact h
  | succ i ih =>
    unfold BeamQueue.sortUp
    have hlow : q.meritAt i = r.meritAt i := h.merits.getD (by omega) _
    have hhigh : q.meritAt (i + 1) = r.meritAt (i + 1) := h.merits.getD hi _
    rw [hlow, hhigh, h.head]
    split_ifs
    · refine ih ⟨h.head, h.tail, h.maxTail, h.le, h.tail_le, ⟨?_, ?_⟩, ⟨?_, ?_⟩, ?_, ?_⟩
        (show i < q.tail by omega)
      · simpa [swapUp] using h.left.nts
      · simpa [swapUp] using h.left.merits
      · simpa [swapUp] using h.right.nts
      · simpa [swapUp] using h.right.merits
      · exact h.nts.swap (by omega) hi
      · exact h.merits.swap (by omega) hi
    · exact h

/-- Queues go on to agree when an entry is written at an index that both have. -/
theorem put (h : Agree q r) {i : Nat} (hi : i < q.tail) (nt : UInt16) (merit : Score) :
    Agree (q.put i nt merit) (r.put i nt merit) := by
  refine sortUp ⟨h.head, h.tail, h.maxTail, h.le, h.tail_le, ⟨?_, ?_⟩, ⟨?_, ?_⟩,
    h.nts.set nt, h.merits.set merit⟩ hi
  · simpa using h.left.nts
  · simpa using h.left.merits
  · simpa using h.right.nts
  · simpa using h.right.merits

theorem add (h : Agree q r) (hroom : q.tail ≠ q.maxTail) (nt : UInt16) (merit : Score) :
    Agree ({ q with tail := q.tail + 1 }.put q.tail nt merit)
      ({ r with tail := r.tail + 1, maxTail := q.maxTail }.put r.tail nt merit) := by
  have hlt : q.tail < q.maxTail := Nat.lt_of_le_of_ne h.tail_le hroom
  have hmax : max q.tail (q.tail + 1) = q.tail + 1 := by omega
  have hleft := h.left
  have hright := h.right
  have hnts := h.nts.put (Nat.le_refl _) (Nat.lt_of_lt_of_le hlt hleft.nts)
    (Nat.lt_of_lt_of_le hlt (h.maxTail ▸ hright.nts)) nt
  have hmerits := h.merits.put (Nat.le_refl _) (Nat.lt_of_lt_of_le hlt hleft.merits)
    (Nat.lt_of_lt_of_le hlt (h.maxTail ▸ hright.merits)) merit
  rw [hmax] at hnts hmerits
  unfold BeamQueue.put
  rw [← h.tail]
  refine sortUp ⟨h.head, rfl, rfl, Nat.le_succ_of_le h.le, hlt, ⟨?_, ?_⟩, ⟨?_, ?_⟩, hnts, hmerits⟩
    (Nat.lt_succ_self _)
  · simpa using hleft.nts
  · simpa using hleft.merits
  · simpa [h.maxTail] using hright.nts
  · simpa [h.maxTail] using hright.merits

theorem insert (h : Agree q r) (nt : UInt16) (merit : Score) :
    (q.insert nt merit).1 = (r.insert nt merit).1 ∧
      Agree (q.insert nt merit).2 (r.insert nt merit).2 := by
  unfold BeamQueue.insert
  have hle := h.le
  rw [← h.maxTail]
  by_cases hfull : q.tail = q.maxTail
  · rw [if_pos hfull, if_pos (h.tail.symm.trans hfull)]
    by_cases hempty : q.tail = q.head
    · rw [if_pos (Or.inl hempty), if_pos (Or.inl (by rw [← h.tail, ← h.head, hempty]))]
      exact ⟨rfl, h⟩
    · have hlast : q.meritAt (q.tail - 1) = r.meritAt (r.tail - 1) := by
        rw [← h.tail]
        exact h.merits.getD (by omega) _
      rw [← hlast, ← h.tail, ← h.head]
      split_ifs
      · exact ⟨rfl, h⟩
      · exact ⟨rfl, h.put (by omega) nt merit⟩
  · rw [if_neg hfull, if_neg fun heq => hfull (h.tail.trans heq)]
    exact ⟨rfl, h.add hfull nt merit⟩

theorem find? (h : Agree q r) (nt : UInt16) : q.find? nt = r.find? nt := by
  have hrange : ∀ i ∈ List.range' q.head q.size, q.nts.getD i 0 = r.nts.getD i 0 := by
    intro i hi
    rw [List.mem_range'_1, BeamQueue.size] at hi
    exact h.nts.getD (by omega) 0
  unfold BeamQueue.find?
  rw [show r.size = q.size by unfold BeamQueue.size; rw [h.head, h.tail], ← h.head]
  generalize List.range' q.head q.size = places at hrange ⊢
  induction places with
  | nil => rfl
  | cons i places ih =>
    rw [List.find?_cons, List.find?_cons, hrange i List.mem_cons_self,
      ih fun j hj => hrange j (List.mem_cons_of_mem _ hj)]

theorem replace (h : Agree q r) (nt : UInt16) (merit : Score) :
    (q.replace nt merit).1 = (r.replace nt merit).1 ∧
      Agree (q.replace nt merit).2 (r.replace nt merit).2 := by
  unfold BeamQueue.replace
  rw [← h.find? nt]
  cases hfind : q.find? nt with
  | none => exact h.insert nt merit
  | some i =>
    have hi : i < q.tail := by
      have hmem := List.mem_of_find?_eq_some hfind
      rw [List.mem_range'_1, BeamQueue.size] at hmem
      have := h.le
      omega
    have hmerit : q.meritAt i = r.meritAt i := h.merits.getD hi _
    dsimp only
    rw [hmerit]
    split_ifs
    · refine ⟨rfl, sortUp ⟨h.head, h.tail, h.maxTail, h.le, h.tail_le, ⟨h.left.nts, ?_⟩,
        ⟨h.right.nts, ?_⟩, h.nts, h.merits.set merit⟩ hi⟩
      · simpa using h.left.merits
      · simpa using h.right.merits
    · exact ⟨rfl, h⟩

/-- Queues that agree hand out the same entry, or none. -/
theorem pop? (h : Agree q r) : (q.pop? = none ∧ r.pop? = none) ∨
    ∃ entry q' r', q.pop? = some (entry, q') ∧ r.pop? = some (entry, r') ∧ Agree q' r' := by
  have hle := h.le
  unfold BeamQueue.pop? head? isEmpty
  by_cases hempty : q.head = q.tail
  · have hempty' : r.head = r.tail := by rw [← h.head, ← h.tail, hempty]
    left
    simp [hempty, hempty']
  · have hempty' : ¬r.head = r.tail := by rwa [← h.head, ← h.tail]
    have hslot : q.slot q.head = r.slot r.head := by
      unfold slot
      rw [← h.head, h.nts.getD (by omega), h.merits.getD (by omega)]
    right
    refine ⟨q.slot q.head, { q with head := q.head + 1 }, { r with head := r.head + 1 }, ?_, ?_, ?_⟩
    · simp [hempty]
    · simp [hempty', hslot]
    · exact ⟨by dsimp only; rw [h.head], h.tail, h.maxTail, by dsimp only; omega, h.tail_le,
        ⟨h.left.nts, h.left.merits⟩, ⟨h.right.nts, h.right.merits⟩, h.nts, h.merits⟩

end Agree

end BeamQueue
end ChartParsing
