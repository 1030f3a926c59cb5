import ChartParsing.Proofs.Packing.Shift
import Mathlib.Data.List.Nodup
import Mathlib.Data.List.Perm.Subperm
import Mathlib.Data.Set.Function
import Mathlib.Order.Bounds.Basic

/-!
# The search for a slot table

A shift is taken if no two values share a slot under it. The marks only say which slots the values
so far have, so it makes no difference what they held before. The search goes through the shifts,
and for these through the widths, in increasing order, and ends at the least that will do. It may
leave out the widths that have fewer slots than there are values, and it needs no more than
sixteen bits.
-/

namespace ChartParsing.SlotTable

variable {values : List UInt16} {shift mask : UInt32} {marks : Array Bool}

theorem slotOf_le (shift mask : UInt32) (value : UInt16) :
    (slotOf shift mask value).toNat ≤ mask.toNat := by
  unfold slotOf
  rw [UInt32.toNat_and]
  exact Nat.and_le_right

/-! ## One shift -/

/-- All values get their marks just if they have different slots and none of these was marked. -/
theorem markAll_eq_true_iff (hsize : mask.toNat < marks.size) :
    (markAll shift mask values marks).1 = true ↔ (values.map (slotOf shift mask)).Nodup ∧
      ∀ value ∈ values, marks[(slotOf shift mask value).toNat]?.getD false = false := by
  induction values generalizing marks with
  | nil => simp [markAll]
  | cons value values ih =>
    have hslot : (slotOf shift mask value).toNat < marks.size :=
      Nat.lt_of_le_of_lt (slotOf_le shift mask value) hsize
    -- a later value finds the mark of this one just if it has the same slot
    have hfree (other : UInt16) : (marks.setIfInBounds (slotOf shift mask value).toNat true)[
        (slotOf shift mask other).toNat]?.getD false = false ↔
          slotOf shift mask other ≠ slotOf shift mask value ∧
            marks[(slotOf shift mask other).toNat]?.getD false = false := by
      simp only [Array.getElem?_setIfInBounds, UInt32.toNat_inj]
      by_cases heq : slotOf shift mask value = slotOf shift mask other
      · simp [← heq, hslot]
      · simp [heq, Ne.symm heq]
    unfold markAll
    by_cases hmarked : marks[(slotOf shift mask value).toNat]?.getD false = true
    · simp [hmarked]
    · have hrest := @ih (marks.setIfInBounds (slotOf shift mask value).toNat true)
        (by simpa using hsize)
      simp only [Array.getD_eq_getD_getElem?, hmarked, Bool.false_eq_true, if_false, hrest, hfree,
        List.map_cons, List.nodup_cons, List.forall_mem_cons, List.mem_map, not_exists, not_and]
      constructor
      · rintro ⟨hnodup, hothers⟩
        exact ⟨⟨fun other hother => (hothers other hother).1, hnodup⟩, trivial,
          fun other hother => (hothers other hother).2⟩
      · rintro ⟨⟨hne, hnodup⟩, -, hothers⟩
        exact ⟨hnodup, fun other hother => ⟨hne other hother, hothers other hother⟩⟩

theorem clearMarks_eq (marks : Array Bool) (count : Nat) :
    clearMarks marks count = Array.replicate count false := by
  simp [clearMarks]

/-- The first shift that gives the values different slots is found, whatever was marked before. -/
theorem firstShift_eq (shifts : List UInt32) (marks : Array Bool) :
    (firstShift values mask shifts marks).1 =
      shifts.find? fun shift => (values.map (slotOf shift mask)).Nodup := by
  induction shifts generalizing marks with
  | nil => rfl
  | cons shift shifts ih =>
    have hmark : (markAll shift mask values (clearMarks marks (mask.toNat + 1))).1 = true ↔
        (values.map (slotOf shift mask)).Nodup := by
      rw [clearMarks_eq, markAll_eq_true_iff (by simp), and_iff_left_iff_imp]
      intro _ value _
      rw [Array.getElem?_replicate]
      split_ifs <;> rfl
    unfold firstShift
    by_cases hnodup : (values.map (slotOf shift mask)).Nodup
    · simp [hmark.2 hnodup, hnodup]
    · simp [mt hmark.1 hnodup, hnodup, ih]

/-- No two of the values share a slot. -/
def Separates (values : Set UInt16) (mask : UInt32) (shift : Nat) : Prop :=
  Set.InjOn (slotOf (UInt32.ofNat shift) mask) values

theorem separates_iff (h : values.Nodup) {shift : Nat} :
    Separates {value | value ∈ values} mask shift ↔
      (values.map (slotOf (UInt32.ofNat shift) mask)).Nodup := by
  rw [List.nodup_map_iff_inj_on h]
  rfl

theorem collisionFreeShift_eq (values : List UInt16) (mask : UInt32) (marks : Array Bool) :
    (collisionFreeShift values mask marks).1 = ((List.range 17).find? fun shift =>
      (values.map (slotOf (UInt32.ofNat shift) mask)).Nodup).map UInt32.ofNat := by
  rw [collisionFreeShift, firstShift_eq, List.find?_map]
  rfl

/-- The least shift up to 16 that separates the values is found. -/
theorem collisionFreeShift_eq_some_iff (h : values.Nodup) :
    (collisionFreeShift values mask marks).1 = some shift ↔
      IsLeast {n | n ≤ 16 ∧ Separates {value | value ∈ values} mask n} shift.toNat := by
  have hfind (n : Nat) : (List.range 17).find? (fun shift =>
      decide (values.map (slotOf (UInt32.ofNat shift) mask)).Nodup) = some n ↔
        IsLeast {n | n ≤ 16 ∧ Separates {value | value ∈ values} mask n} n := by
    rw [List.find?_range_eq_some]
    simp only [decide_eq_true_iff, ← separates_iff h, List.mem_range, Bool.not_eq_true',
      decide_eq_false_iff_not]
    constructor
    · rintro ⟨hseparates, hn, hlower⟩
      refine ⟨⟨Nat.le_of_lt_succ hn, hseparates⟩, fun m hm => ?_⟩
      by_contra hlt
      exact hlower m (by omega) hm.2
    · rintro ⟨⟨hn, hseparates⟩, hleast⟩
      refine ⟨hseparates, Nat.lt_succ_of_le hn, fun m hm hm' => ?_⟩
      have := hleast ⟨by omega, hm'⟩
      omega
  rw [collisionFreeShift_eq, Option.map_eq_some_iff]
  constructor
  · rintro ⟨n, hn, rfl⟩
    have hleast := (hfind n).1 hn
    have hn' : (UInt32.ofNat n).toNat = n := Nat.mod_eq_of_lt (by have := hleast.1.1; omega)
    rwa [hn']
  · intro hleast
    exact ⟨shift.toNat, (hfind _).2 hleast, UInt32.ofNat_toNat⟩

/-- No shift is found just if none up to 16 separates the values. -/
theorem collisionFreeShift_eq_none_iff (h : values.Nodup) :
    (collisionFreeShift values mask marks).1 = none ↔
      ∀ shift ≤ 16, ¬Separates {value | value ∈ values} mask shift := by
  rw [collisionFreeShift_eq, Option.map_eq_none_iff, List.find?_eq_none]
  simp [separates_iff h, Nat.lt_succ_iff]

/-! ## One width -/

/-- Without a shift, sixteen bits tell all numbers apart. -/
theorem slotOf_full (value : UInt16) : slotOf 0 (lowMask 16) value = value.toUInt32 := by
  apply UInt32.toNat_inj.1
  have hlt := value.toNat_lt
  unfold slotOf
  rw [UInt32.toNat_and, toNat_lowMask (by omega), Nat.and_two_pow_sub_one_eq_mod]
  simp only [UInt32.toNat_shiftRight, UInt16.toNat_toUInt32, UInt32.toNat_zero, Nat.zero_mod,
    Nat.shiftRight_zero]
  exact Nat.mod_eq_of_lt hlt

theorem separates_full (values : Set UInt16) : Separates values (lowMask 16) 0 := by
  intro x _ y _ hxy
  have heq : x.toUInt32 = y.toUInt32 := by
    rw [← slotOf_full x, ← slotOf_full y]
    exact hxy
  simpa using congrArg UInt32.toUInt16 heq

/-- Different values have no slots of their own in a table with fewer slots. -/
theorem length_le_of_separates (h : values.Nodup) {bits n : Nat} (hbits : bits < 32)
    (hseparates : Separates {value | value ∈ values} (lowMask bits) n) :
    values.length ≤ 2 ^ bits := by
  have hnodup : ((values.map (slotOf (UInt32.ofNat n) (lowMask bits))).map UInt32.toNat).Nodup :=
    List.Nodup.map (fun _ _ heq => UInt32.toNat_inj.1 heq) ((separates_iff h).1 hseparates)
  have hsub : (values.map (slotOf (UInt32.ofNat n) (lowMask bits))).map UInt32.toNat ⊆
      List.range (2 ^ bits) := by
    intro slot hslot
    simp only [List.mem_map, exists_exists_and_eq_and] at hslot
    obtain ⟨value, -, rfl⟩ := hslot
    have hle := slotOf_le (UInt32.ofNat n) (lowMask bits) value
    have hpos := Nat.two_pow_pos bits
    rw [toNat_lowMask hbits] at hle
    exact List.mem_range.2 (by omega)
  simpa using (List.subperm_of_subset hnodup hsub).length_le

/-- There are no more different numbers than 16 bits can tell apart. -/
theorem length_le_of_nodup (h : values.Nodup) : values.length ≤ 65536 :=
  length_le_of_separates h (by omega) (separates_full _)

theorem leastBits_le {count : Nat} (h : count ≤ 65536) : leastBits count ≤ 16 := by
  unfold leastBits
  split_ifs
  · exact Nat.zero_le _
  · have hlargest : (UInt32.ofNat (count - 1)).toNat = count - 1 := Nat.mod_eq_of_lt (by omega)
    exact bitsFor_le (by omega) (by omega)

/-- Fewer bits than the least have too few slots. -/
theorem two_pow_lt_of_lt_leastBits {count bits : Nat} (h : count ≤ 65536)
    (hbits : bits < leastBits count) : 2 ^ bits < count := by
  unfold leastBits at hbits
  split_ifs at hbits with hcount
  · omega
  · have hlargest : (UInt32.ofNat (count - 1)).toNat = count - 1 := Nat.mod_eq_of_lt (by omega)
    have hne : count - 1 ≠ 0 := by omega
    have hzero : UInt32.ofNat (count - 1) ≠ 0 := by
      intro heq
      rw [heq] at hlargest
      exact hne hlargest.symm
    rw [bitsFor, if_neg hzero, hlargest] at hbits
    calc 2 ^ bits ≤ 2 ^ (count - 1).log2 := Nat.pow_le_pow_right (by omega) (by omega)
      _ ≤ count - 1 := Nat.log2_self_le hne
      _ < count := by omega

/-! ## The least width -/

/-- Some shift up to 16 separates the values in a table of that many bits. -/
def HasShift (values : Set UInt16) (bits : Nat) : Prop :=
  ∃ shift ≤ 16, Separates values (lowMask bits) shift

theorem hasShift_full (values : Set UInt16) : HasShift values 16 :=
  ⟨0, Nat.zero_le _, separates_full values⟩

/-- Of increasing widths among which one will do, the least such is taken, with a shift that was
found for it. -/
theorem firstTable_spec (h : values.Nodup) {widths : List Nat} (hsorted : widths.Pairwise (· < ·))
    (marks : Array Bool) (hsome : ∃ bits ∈ widths, HasShift {value | value ∈ values} bits) :
    ∃ bits ∈ widths, (∀ b ∈ widths, b < bits → ¬HasShift {value | value ∈ values} b) ∧
      (firstTable values widths marks).1.2 = lowMask bits ∧
      ∀ marks', (collisionFreeShift values (lowMask bits) marks').1 =
        some (firstTable values widths marks).1.1 := by
  induction widths generalizing marks with
  | nil => simp at hsome
  | cons bits widths ih =>
    obtain ⟨hfirst, hsorted⟩ := List.pairwise_cons.1 hsorted
    unfold firstTable
    cases hfound : collisionFreeShift values (lowMask bits) marks with
    | mk found marks' =>
      cases found with
      | some shift =>
        refine ⟨bits, List.mem_cons_self, ?_, rfl, fun marks'' => ?_⟩
        · intro b hb hlt
          rcases List.mem_cons.1 hb with rfl | hb
          · omega
          · have := hfirst b hb
            omega
        · rw [collisionFreeShift_eq, ← collisionFreeShift_eq values (lowMask bits) marks, hfound]
      | none =>
        have hnone : ¬HasShift {value | value ∈ values} bits := by
          rintro ⟨shift, hshift, hseparates⟩
          exact (collisionFreeShift_eq_none_iff h).1 (congrArg Prod.fst hfound) shift hshift
            hseparates
        have hrest : ∃ b ∈ widths, HasShift {value | value ∈ values} b := by
          obtain ⟨b, hb, hshift⟩ := hsome
          rcases List.mem_cons.1 hb with rfl | hb
          · exact absurd hshift hnone
          · exact ⟨b, hb, hshift⟩
        obtain ⟨least, hmem, hlower, htable⟩ := ih hsorted marks' hrest
        refine ⟨least, List.mem_cons_of_mem _ hmem, ?_, htable⟩
        intro b hb hlt
        rcases List.mem_cons.1 hb with rfl | hb
        · exact hnone
        · exact hlower b hb hlt

/-- Of all tables in which the values have slots of their own, the one with the fewest bits, and
with the least shift for that. -/
structure IsLeastTable (values : Set UInt16) (shift mask : UInt32) (bits : Nat) : Prop where
  mask_eq : mask = lowMask bits
  bits_le : bits ≤ 16
  bits_least : IsLeast {b | HasShift values b} bits
  shift_least : IsLeast {n | n ≤ 16 ∧ Separates values mask n} shift.toNat

theorem IsLeastTable.mask_le {values : Set UInt16} {bits : Nat}
    (h : IsLeastTable values shift mask bits) : mask.toNat ≤ 65535 := by
  have hbits := h.bits_le
  have hpow : 2 ^ bits ≤ 2 ^ 16 := Nat.pow_le_pow_right (by omega) hbits
  rw [h.mask_eq, toNat_lowMask (by omega)]
  omega

theorem IsLeastTable.injOn {values : Set UInt16} {bits : Nat}
    (h : IsLeastTable values shift mask bits) : Set.InjOn (slotOf shift mask) values := by
  have hseparates : Separates values mask shift.toNat := h.shift_least.1.2
  rwa [Separates, UInt32.ofNat_toNat] at hseparates

/-- Fewer bits than the values need to be counted are not enough under any shift. -/
theorem not_separates_of_lt_leastBits (h : values.Nodup) {bits shift : Nat}
    (hbits : bits < leastBits values.length) :
    ¬Separates {value | value ∈ values} (lowMask bits) shift := by
  intro hseparates
  have hcount := length_le_of_nodup h
  have hleast := leastBits_le hcount
  have hlt := two_pow_lt_of_lt_leastBits hcount hbits
  have hle := length_le_of_separates h (by omega) hseparates
  omega

/-- The search ends at the least table, with a shift that was found: what stands behind the last
width is never taken. -/
theorem smallest_spec (h : values.Nodup) (marks : Array Bool) :
    ∃ bits, leastBits values.length ≤ bits ∧
      IsLeastTable {value | value ∈ values} (smallest values marks).1.1 (smallest values marks).1.2
        bits ∧
      ∀ marks', (collisionFreeShift values (lowMask bits) marks').1 =
        some (smallest values marks).1.1 := by
  have hleast := leastBits_le (length_le_of_nodup h)
  have hsome : ∃ bits ∈ List.range' (leastBits values.length) (17 - leastBits values.length),
      HasShift {value | value ∈ values} bits :=
    ⟨16, List.mem_range'_1.2 (by omega), hasShift_full _⟩
  obtain ⟨bits, hmem, hlower, hmask, hfound⟩ :=
    firstTable_spec h List.pairwise_lt_range' marks hsome
  rw [List.mem_range'_1] at hmem
  have hshift := (collisionFreeShift_eq_some_iff h).1 (hfound #[])
  refine ⟨bits, hmem.1, ⟨hmask, by omega, ⟨?_, ?_⟩, ?_⟩, hfound⟩
  · exact ⟨_, hshift.1⟩
  · rintro b ⟨shift, hle, hseparates⟩
    by_contra hlt
    rcases Nat.lt_or_ge b (leastBits values.length) with hb | hb
    · exact not_separates_of_lt_leastBits h hb hseparates
    · exact hlower b (List.mem_range'_1.2 (by omega)) (by omega) ⟨shift, hle, hseparates⟩
  · rw [smallest, hmask]
    exact hshift

/-- A table never has more slots than there are numbers. -/
theorem smallest_mask (h : values.Nodup) (marks : Array Bool) :
    (smallest values marks).1.2.toNat ≤ 65535 := by
  obtain ⟨bits, -, htable, -⟩ := smallest_spec h marks
  exact htable.mask_le

/-- A table never shifts by more bits than there are. -/
theorem smallest_shift (h : values.Nodup) (marks : Array Bool) :
    (smallest values marks).1.1.toNat ≤ 16 := by
  obtain ⟨bits, -, htable, -⟩ := smallest_spec h marks
  exact htable.shift_least.1.1

/-- No two of the values share a slot of their table. -/
theorem separate_smallest (h : values.Nodup) (marks : Array Bool) :
    (values.map (slotOf (smallest values marks).1.1 (smallest values marks).1.2)).Nodup := by
  obtain ⟨bits, -, htable, -⟩ := smallest_spec h marks
  rw [List.nodup_map_iff_inj_on h]
  exact htable.injOn

end ChartParsing.SlotTable
