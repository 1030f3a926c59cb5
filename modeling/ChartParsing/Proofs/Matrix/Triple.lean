import ChartParsing.Matrix.Triple
import Mathlib.Algebra.Group.Nat.Defs
import Mathlib.Order.Basic
import Mathlib.Tactic.Set
import Mathlib.Tactic.SplitIfs

/-!
# Accumulated positions

Accumulating weighted positions leaves one triple for each position that occurs, in
increasing order. Its score adds the scores given for the position as probabilities,
in the order in which they were listed: the sort is stable.
-/

namespace ChartParsing

/-- A merge sort keeps the order of elements that come equally early. -/
theorem filter_mergeSort {α : Type} {le : α → α → Bool}
    (trans : ∀ a b c, le a b = true → le b c = true → le a c = true)
    (total : ∀ a b, (le a b || le b a) = true) {p : α → Bool}
    (tied : ∀ a b, p a = true → p b = true → le a b = true) (xs : List α) :
    (xs.mergeSort le).filter p = xs.filter p := by
  have hpair : (xs.filter p).Pairwise (fun a b => le a b = true) := by
    apply List.Pairwise.imp_of_mem (R := fun _ _ => True)
    · intro a b ha hb _
      exact tied a b (List.mem_filter.1 ha).2 (List.mem_filter.1 hb).2
    · exact List.pairwise_of_forall (fun _ _ => trivial)
  have hsub : (xs.filter p).Sublist ((xs.mergeSort le).filter p) := by
    have h := (List.sublist_mergeSort trans total hpair List.filter_sublist).filter p
    rwa [List.filter_filter, show (fun a => p a && p a) = p from funext fun a => Bool.and_self _]
      at h
  have hperm : ((xs.mergeSort le).filter p).Perm (xs.filter p) :=
    (List.mergeSort_perm xs le).filter p
  exact (hsub.eq_of_length hperm.length_eq.symm).symm

namespace Triple

/-- The place of a position in increasing order. -/
def place (major minor : UInt32) : Nat := major.toNat * 2 ^ 32 + minor.toNat

def rank (t : Triple) : Nat := place t.major t.minor

theorem place_eq_iff {major minor major' minor' : UInt32} :
    place major minor = place major' minor' ↔ major = major' ∧ minor = minor' := by
  have h := minor.toNat_lt
  have h' := minor'.toNat_lt
  rw [← UInt32.toNat_inj, ← UInt32.toNat_inj]
  unfold place
  omega

theorem rank_eq_iff {t u : Triple} : t.rank = u.rank ↔ t.major = u.major ∧ t.minor = u.minor :=
  place_eq_iff

theorem le_iff_rank (t u : Triple) : le t u = true ↔ t.rank ≤ u.rank := by
  have ht := t.minor.toNat_lt
  have hu := u.minor.toNat_lt
  simp only [le, Bool.or_eq_true, Bool.and_eq_true, decide_eq_true_iff, UInt32.lt_iff_toNat_lt,
    UInt32.le_iff_toNat_le, ← UInt32.toNat_inj]
  unfold rank place
  omega

theorem sameCell_iff_rank (t u : Triple) : t.sameCell u = true ↔ t.rank = u.rank := by
  rw [rank_eq_iff]
  simp [sameCell]

/-- The scores listed for a position, added as probabilities. -/
def total? (ts : List Triple) (rank : Nat) : Option Score :=
  match (ts.filter fun t => t.rank = rank).map (·.value) with
  | [] => none
  | value :: values => some (values.foldl Score.logSum value)

theorem total?_concat (ts : List Triple) (t : Triple) (rank : Nat) :
    total? (ts ++ [t]) rank =
      if t.rank = rank then
        match total? ts rank with
        | some value => some (Score.logSum value t.value)
        | none => some t.value
      else total? ts rank := by
  unfold total?
  rw [List.filter_append]
  split_ifs with h
  · rw [List.filter_cons_of_pos (by simpa using h), List.map_append]
    cases (ts.filter fun t => t.rank = rank).map (·.value) with
    | nil => rfl
    | cons value values => simp
  · rw [List.filter_cons_of_neg (by simpa using h)]
    simp

theorem total?_singleton (t : Triple) : total? [t] t.rank = some t.value := by
  rw [← List.nil_append [t], total?_concat, if_pos rfl]
  rfl

theorem eq_of_total?_singleton {t : Triple} {rank : Nat} {value : Score}
    (h : total? [t] rank = some value) : value = t.value := by
  rw [← List.nil_append [t], total?_concat] at h
  split_ifs at h with hrank
  · exact (Option.some.inj h).symm
  · cases h

theorem total?_mergeSort (ts : List Triple) (rank : Nat) :
    total? (ts.mergeSort le) rank = total? ts rank := by
  have h : (ts.mergeSort le).filter (fun t => t.rank = rank)
      = ts.filter fun t => t.rank = rank := by
    apply filter_mergeSort
    · intro a b c
      simp only [le_iff_rank]
      omega
    · intro a b
      simp only [Bool.or_eq_true, le_iff_rank]
      omega
    · intro a b
      simp only [decide_eq_true_iff, le_iff_rank]
      omega
  unfold total?
  rw [h]

theorem exists_of_total? {ts : List Triple} {rank : Nat} {value : Score}
    (h : total? ts rank = some value) : ∃ t ∈ ts, t.rank = rank := by
  unfold total? at h
  cases hl : ts.filter fun t => t.rank = rank with
  | nil => simp [hl] at h
  | cons t rest =>
    have hmem : t ∈ ts.filter fun t => t.rank = rank := by simp [hl]
    exact ⟨t, (List.mem_filter.1 hmem).1, by simpa using (List.mem_filter.1 hmem).2⟩

theorem total?_isSome {ts : List Triple} {t : Triple} (h : t ∈ ts) :
    (total? ts t.rank).isSome := by
  have hmem : t ∈ ts.filter fun u => u.rank = t.rank := List.mem_filter.2 ⟨h, by simp⟩
  unfold total?
  cases hl : ts.filter fun u => u.rank = t.rank with
  | nil => simp [hl] at hmem
  | cons u rest => rfl

/-- Lists of triples whose places correspond and whose scores agree have equal totals. -/
theorem total?_map_congr {β : Type} {f g : β → Triple} {xs : List β} {i j : Nat}
    (hrank : ∀ x ∈ xs, (f x).rank = i ↔ (g x).rank = j) (hvalue : ∀ x, (f x).value = (g x).value) :
    total? (xs.map f) i = total? (xs.map g) j := by
  have hfilter : (xs.map f).filter (fun t => t.rank = i)
      = (xs.filter fun x => (g x).rank = j).map f := by
    rw [List.filter_map]
    refine congrArg (List.map f) (List.filter_congr fun x hx => ?_)
    rw [Function.comp_apply, decide_eq_decide]
    exact hrank x hx
  unfold total?
  rw [hfilter, List.filter_map, List.map_map, List.map_map,
    show ((·.value) ∘ f : β → Score) = (·.value) ∘ g from funext hvalue]
  rfl

/-- The triples are in increasing order and hold the totals of the listed ones. -/
structure Accumulates (merged ts : List Triple) : Prop where
  sorted : merged.Pairwise fun t u => t.rank < u.rank
  mem : ∀ t, t ∈ merged ↔ total? ts t.rank = some t.value

theorem Accumulates.nil : Accumulates [] [] := by
  constructor
  · exact List.Pairwise.nil
  · simp [total?]

theorem ext_of_rank {t u : Triple} (h : t.rank = u.rank) (hv : t.value = u.value) : t = u := by
  obtain ⟨hmajor, hminor⟩ := rank_eq_iff.1 h
  cases t
  cases u
  simp_all

/-- A triple for a new position, after all others, is added at the end. -/
theorem Accumulates.push {merged ts : List Triple} {t : Triple} (h : Accumulates merged ts)
    (hnew : ∀ u ∈ ts, u.rank < t.rank) : Accumulates (merged ++ [t]) (ts ++ [t]) := by
  have hlt : ∀ m ∈ merged, m.rank < t.rank := by
    intro m hm
    obtain ⟨u, hu, hrank⟩ := exists_of_total? ((h.mem m).1 hm)
    rw [← hrank]
    exact hnew u hu
  constructor
  · rw [List.pairwise_append]
    refine ⟨h.sorted, List.pairwise_singleton _ _, ?_⟩
    intro m hm x hx
    rw [List.mem_singleton.1 hx]
    exact hlt m hm
  · intro x
    rw [List.mem_append, List.mem_singleton, total?_concat]
    by_cases hrank : t.rank = x.rank
    · have hnone : total? ts x.rank = none := by
        rw [Option.eq_none_iff_forall_ne_some]
        intro value hvalue
        obtain ⟨u, hu, hu'⟩ := exists_of_total? hvalue
        have := hnew u hu
        omega
      rw [if_pos hrank, hnone]
      constructor
      · rintro (hx | rfl)
        · have := hlt x hx
          omega
        · rfl
      · intro hv
        exact Or.inr (ext_of_rank hrank.symm (Option.some.inj hv).symm)
    · rw [if_neg hrank, ← h.mem]
      constructor
      · rintro (hx | rfl)
        · exact hx
        · exact absurd rfl hrank
      · exact Or.inl

/-- A triple for the last position is added to its score. -/
theorem Accumulates.add {init ts : List Triple} {last t : Triple}
    (h : Accumulates (init ++ [last]) ts) (hrank : last.rank = t.rank) :
    Accumulates (init ++ [{ last with value := Score.logSum last.value t.value }])
      (ts ++ [t]) := by
  set last' : Triple := { last with value := Score.logSum last.value t.value } with hlast'
  have hrank' : last'.rank = last.rank := rfl
  obtain ⟨hinit, -, hlt⟩ := List.pairwise_append.1 h.sorted
  have hlt : ∀ m ∈ init, m.rank < last.rank := fun m hm => hlt m hm last (List.mem_singleton.2 rfl)
  have htotal : total? ts last.rank = some last.value :=
    (h.mem last).1 (List.mem_append_right _ (List.mem_singleton.2 rfl))
  constructor
  · rw [List.pairwise_append]
    refine ⟨hinit, List.pairwise_singleton _ _, ?_⟩
    intro m hm x hx
    rw [List.mem_singleton.1 hx, hrank']
    exact hlt m hm
  · intro x
    rw [List.mem_append, List.mem_singleton, total?_concat]
    by_cases hx : t.rank = x.rank
    · rw [if_pos hx, ← hx, ← hrank, htotal]
      constructor
      · rintro (hx' | rfl)
        · have := hlt x hx'
          omega
        · rfl
      · intro hv
        exact Or.inr (ext_of_rank (by omega) (Option.some.inj hv).symm)
    · rw [if_neg hx, ← h.mem, List.mem_append, List.mem_singleton]
      constructor
      · rintro (hx' | rfl)
        · exact Or.inl hx'
        · omega
      · rintro (hx' | rfl)
        · exact Or.inl hx'
        · omega

theorem Accumulates.append {merged : Array Triple} {ts : List Triple} {t : Triple}
    (h : Accumulates merged.toList ts) (hle : ∀ u ∈ ts, u.rank ≤ t.rank) :
    Accumulates (append merged t).toList (ts ++ [t]) := by
  have hfresh (hne : ∀ m ∈ merged.toList, m.rank ≠ t.rank) :
      Accumulates (merged.push t).toList (ts ++ [t]) := by
    rw [Array.toList_push]
    apply h.push
    intro u hu
    refine Nat.lt_of_le_of_ne (hle u hu) fun hrank => ?_
    obtain ⟨value, hvalue⟩ := Option.isSome_iff_exists.1 (total?_isSome hu)
    exact hne ⟨u.major, u.minor, value⟩ ((h.mem _).2 hvalue) hrank
  unfold Triple.append
  cases hback : merged.back? with
  | none =>
    obtain rfl := Array.back?_eq_none_iff.1 hback
    exact hfresh (by simp)
  | some last =>
    obtain ⟨init, rfl⟩ := Array.back?_eq_some_iff.1 hback
    rw [Array.toList_push] at h
    dsimp only
    split_ifs with hcell
    · rw [sameCell_iff_rank] at hcell
      rw [Array.pop_push, Array.toList_push]
      exact h.add hcell
    · rw [sameCell_iff_rank] at hcell
      apply hfresh
      intro m hm hrank
      rw [Array.toList_push, List.mem_append, List.mem_singleton] at hm
      rcases hm with hm | rfl
      · -- an earlier triple would come after the last one
        have hlt := (List.pairwise_append.1 h.sorted).2.2 m hm last (List.mem_singleton.2 rfl)
        obtain ⟨u, hu, hu'⟩ := exists_of_total?
          ((h.mem last).1 (List.mem_append_right _ (List.mem_singleton.2 rfl)))
        have := hle u hu
        omega
      · exact hcell hrank

theorem accumulates_foldl {post pre : List Triple} {merged : Array Triple}
    (h : Accumulates merged.toList pre)
    (hsorted : (pre ++ post).Pairwise fun t u => t.rank ≤ u.rank) :
    Accumulates (post.foldl Triple.append merged).toList (pre ++ post) := by
  induction post generalizing pre merged with
  | nil => simpa using h
  | cons t post ih =>
    have hle : ∀ u ∈ pre, u.rank ≤ t.rank := fun u hu =>
      (List.pairwise_append.1 hsorted).2.2 u hu t List.mem_cons_self
    rw [List.append_cons] at hsorted ⊢
    exact ih (h.append hle) hsorted

/-- The accumulated triples are in order and hold the totals of the given ones. -/
theorem accumulate_spec (ts : List Triple) : Accumulates (accumulate ts).toList ts := by
  have hsorted : (ts.mergeSort le).Pairwise fun t u => t.rank ≤ u.rank := by
    have h : (ts.mergeSort le).Pairwise fun t u => le t u = true := by
      apply List.pairwise_mergeSort
      · intro a b c
        simp only [le_iff_rank]
        omega
      · intro a b
        simp only [Bool.or_eq_true, le_iff_rank]
        omega
    exact h.imp fun hle => (le_iff_rank _ _).1 hle
  have h := accumulates_foldl Accumulates.nil (by simpa using hsorted)
  refine ⟨h.sorted, fun t => ?_⟩
  have hmem := h.mem t
  rwa [List.nil_append, total?_mergeSort] at hmem

end Triple
end ChartParsing
