import ChartParsing.Proofs.Packing.Slots

/-!
# The order of keys

The three strategies give a pair different keys, and accept different pairs: under two of
them a pair has no key unless it was asked for, under the third every left child has one
with every right child. What they have in common is the order of the keys, which is that of
the left children, and of the right children where the left ones are equal.
-/

namespace ChartParsing

/-- The place of a pair in the order of keys. -/
def pairRank (left right : UInt16) : Nat := left.toNat * 65536 + right.toNat

theorem pairRank_lt {left right left' right' : UInt16} :
    pairRank left right < pairRank left' right' ↔
      left < left' ∨ (left = left' ∧ right < right') := by
  have := right.toNat_lt
  have := right'.toNat_lt
  unfold pairRank
  rw [UInt16.lt_iff_toNat_lt, UInt16.lt_iff_toNat_lt, ← UInt16.toNat_inj]
  omega

theorem pairRank_inj {left right left' right' : UInt16} :
    pairRank left right = pairRank left' right' ↔ left = left' ∧ right = right' := by
  have := right.toNat_lt
  have := right'.toNat_lt
  unfold pairRank
  rw [← UInt16.toNat_inj, ← UInt16.toNat_inj]
  omega

namespace ShiftPacking

variable {p : ShiftPacking} {left right left' right' : UInt16} {key key' : UInt32}

theorem Fits.key_lt (hp : p.Fits) (h : p.pack left right = some key)
    (h' : p.pack left' right' = some key') (hlt : pairRank left right < pairRank left' right') :
    key < key' := by
  obtain ⟨-, hright, -⟩ := pack_eq_some h
  have hright := hp.rights_lt right hright
  rw [UInt32.lt_iff_toNat_lt, hp.toNat_key h, hp.toNat_key h']
  rcases pairRank_lt.1 hlt with hleft | ⟨rfl, hright'⟩
  · rw [UInt16.lt_iff_toNat_lt] at hleft
    calc left.toNat * 2 ^ p.shift + right.toNat
        < (left.toNat + 1) * 2 ^ p.shift := by rw [Nat.succ_mul]; omega
      _ ≤ left'.toNat * 2 ^ p.shift := Nat.mul_le_mul_right _ hleft
      _ ≤ left'.toNat * 2 ^ p.shift + right'.toNat := Nat.le_add_right _ _
  · exact Nat.add_lt_add_left (UInt16.lt_iff_toNat_lt.1 hright') _

end ShiftPacking

namespace BitVectorPacking

variable {p : BitVectorPacking} {left right : UInt16} {key : UInt32}

theorem increasing_keys (keys : List UInt32) :
    SortedSearch.Increasing ((SortedSearch.sortedDistinct keys).toArray[·]?) 0
      (SortedSearch.sortedDistinct keys).length := by
  have hlt : (SortedSearch.sortedDistinct keys).Pairwise fun m n => m < n :=
    (SortedSearch.increasing_sortedDistinct (fun _ _ _ => UInt32.le_trans) UInt32.le_total
      (fun _ _ => UInt32.le_antisymm) keys).imp fun h => UInt32.lt_of_le_of_ne h.1 h.2
  refine ⟨fun i _ hi => by simpa using hi, fun i j a b _ hij hj ha hb => ?_⟩
  rw [List.getElem?_toArray] at ha hb
  obtain ⟨hi, rfl⟩ := List.getElem?_eq_some_iff.1 ha
  obtain ⟨hj, rfl⟩ := List.getElem?_eq_some_iff.1 hb
  exact List.pairwise_iff_getElem.1 hlt i j hi hj hij

/-- The valid keys are those of the pairs that were asked for. -/
theorem isValid_iff {bounds : ClassBounds} {pairs : List (UInt16 × UInt16)}
    (hp : build bounds pairs = .ok p) :
    p.isValid key = true ↔ ∃ pair ∈ pairs, p.base.pack pair.1 pair.2 = some key := by
  unfold isValid
  rw [(build_ok hp).2, Option.isSome_iff_exists, List.size_toArray]
  simp only [SortedSearch.find?_eq_some (fun _ _ => UInt32.lt_iff_toNat_lt) (Nat.zero_le _)
    (increasing_keys _)]
  rw [← List.mem_filterMap, ← SortedSearch.mem_sortedDistinct, List.mem_iff_getElem?]
  simp only [List.getElem?_toArray]
  constructor
  · rintro ⟨i, -, -, hi⟩
    exact ⟨i, hi⟩
  · rintro ⟨i, hi⟩
    exact ⟨i, Nat.zero_le i, (List.getElem?_eq_some_iff.1 hi).1, hi⟩

end BitVectorPacking

namespace PairHash

variable {lefts : Interval} {pairs : List (UInt16 × UInt16)} {left right left' right' : UInt16}
  {key key' : UInt32}

/-- The pairs of a hash stand in increasing order. -/
theorem sorted_pairs (lefts : Interval) (pairs : List (UInt16 × UInt16)) :
    (build lefts pairs).pairs.toList.Pairwise fun p q => pairRank p.1 p.2 < pairRank q.1 q.2 := by
  have hpairs : (build lefts pairs).pairs.toList = _ := (complete_build lefts pairs).pairs
  rw [hpairs, List.pairwise_flatMap]
  constructor
  · intro left _
    rw [List.pairwise_map]
    exact (sorted_rights _).imp fun h => pairRank_lt.2 (Or.inr ⟨rfl, h⟩)
  · refine lefts.pairwise_toList.imp fun {m n} hlt p hp q hq => ?_
    obtain ⟨right, -, rfl⟩ := List.mem_map.1 hp
    obtain ⟨right', -, rfl⟩ := List.mem_map.1 hq
    exact pairRank_lt.2 (Or.inl hlt)

theorem key_lt (h : (build lefts pairs).pack left right = some key)
    (h' : (build lefts pairs).pack left' right' = some key')
    (hlt : pairRank left right < pairRank left' right') : key < key' := by
  obtain ⟨hi, hget⟩ := Array.getElem?_eq_some_iff.1 (unpack_of_pack h).1
  obtain ⟨hj, hget'⟩ := Array.getElem?_eq_some_iff.1 (unpack_of_pack h').1
  rw [UInt32.lt_iff_toNat_lt]
  rcases Nat.lt_trichotomy key.toNat key'.toNat with hkey | hkey | hkey
  · exact hkey
  · simp only [hkey] at hget
    cases hget.symm.trans hget'
    exact absurd hlt (Nat.lt_irrefl _)
  · have hback := List.pairwise_iff_getElem.1 (sorted_pairs lefts pairs) _ _ (by simpa using hj)
      (by simpa using hi) hkey
    simp only [Array.getElem_toList, hget, hget'] at hback
    omega

end PairHash

namespace Packing

variable {kind : PackingKind} {bounds : ClassBounds} {pairs : List (UInt16 × UInt16)} {p : Packing}
  {left right left' right' : UInt16} {key key' : UInt32}

/-- Whatever the strategy, keys stand in the order of their pairs. -/
theorem key_lt (hp : build kind bounds pairs = .ok p) (h : p.pack left right = some key)
    (h' : p.pack left' right' = some key') (hlt : pairRank left right < pairRank left' right') :
    key < key' := by
  obtain ⟨-, s, hs, rfl⟩ | ⟨-, b, hb, rfl⟩ | ⟨-, rfl⟩ := build_cases hp
  · exact (ShiftPacking.build_fits hs).key_lt h h' hlt
  · exact (BitVectorPacking.build_fits hb).key_lt (BitVectorPacking.base_of_pack h).1
      (BitVectorPacking.base_of_pack h').1 hlt
  · exact PairHash.key_lt h h' hlt

theorem key_lt_iff (hp : build kind bounds pairs = .ok p) (h : p.pack left right = some key)
    (h' : p.pack left' right' = some key') :
    key < key' ↔ pairRank left right < pairRank left' right' := by
  refine ⟨fun hkey => ?_, key_lt hp h h'⟩
  rcases Nat.lt_trichotomy (pairRank left right) (pairRank left' right') with hlt | heq | hlt
  · exact hlt
  · obtain ⟨rfl, rfl⟩ := pairRank_inj.1 heq
    rw [h] at h'
    cases h'
    exact absurd hkey (UInt32.lt_irrefl _)
  · exact absurd hkey (UInt32.lt_asymm (key_lt hp h' h hlt))

end Packing
end ChartParsing
