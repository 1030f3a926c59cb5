import ChartParsing.Packing.Basic
import Mathlib.Algebra.Group.Nat.Defs
import Mathlib.Tactic.Set
import Mathlib.Tactic.SplitIfs

/-!
# Shifted keys

A shifted key is the left child times a power of two, plus the right child. Since a
right child is smaller than that power, the pair is read back from the key.
-/

namespace ChartParsing

namespace SlotTable

theorem bitsFor_le {largest : UInt32} {n : Nat} (h : largest.toNat < 2 ^ n) (hn : 0 < n) :
    bitsFor largest ≤ n := by
  unfold bitsFor
  split_ifs with h0
  · exact hn
  · have hne : largest.toNat ≠ 0 := fun h' => h0 (UInt32.toNat_inj.1 h')
    exact (Nat.log2_lt hne).2 h

theorem le_two_pow_bitsFor (largest : UInt32) : largest.toNat < 2 ^ bitsFor largest := by
  unfold bitsFor
  split_ifs with h0
  · rw [h0]
    decide
  · exact Nat.lt_log2_self

theorem toNat_lowMask {bits : Nat} (h : bits < 32) : (lowMask bits).toNat = 2 ^ bits - 1 := by
  have hlt : 2 ^ bits < 2 ^ 32 := Nat.pow_lt_pow_right (by omega) h
  change (2 ^ bits - 1) % 2 ^ 32 = _
  exact Nat.mod_eq_of_lt (by omega)

end SlotTable

namespace ShiftPacking

/-- What building a shift packing makes sure of. -/
structure Fits (p : ShiftPacking) : Prop where
  shift_le : p.shift ≤ 16
  mask : p.mask.toNat = 2 ^ p.shift - 1
  rights_lt : ∀ right, p.rights.contains right = true → right.toNat < 2 ^ p.shift
  size : p.size = p.lefts.stop.toNat * 2 ^ p.shift
  size_le : p.size ≤ 2 ^ 31

theorem build_fits {bounds : ClassBounds} {p : ShiftPacking} (h : build bounds = .ok p) :
    p.Fits := by
  unfold build at h
  dsimp only at h
  split_ifs at h with hsize
  set shift := SlotTable.bitsFor (UInt32.ofNat (bounds.rightChildren.stop.toNat - 1)) with hshift
  have hstop := bounds.rightChildren.stop.toNat_lt
  have hlargest : (UInt32.ofNat (bounds.rightChildren.stop.toNat - 1)).toNat
      = bounds.rightChildren.stop.toNat - 1 := Nat.mod_eq_of_lt (by omega)
  have hle : shift ≤ 16 := SlotTable.bitsFor_le (by rw [hlargest]; omega) (by omega)
  obtain rfl := Except.ok.inj h
  refine ⟨hle, SlotTable.toNat_lowMask (by omega), ?_, rfl, ?_⟩
  · intro right hright
    have hlt := SlotTable.le_two_pow_bitsFor (UInt32.ofNat (bounds.rightChildren.stop.toNat - 1))
    rw [hlargest, ← hshift] at hlt
    simp only [Interval.contains, Bool.and_eq_true, decide_eq_true_iff,
      UInt16.lt_iff_toNat_lt] at hright
    dsimp only
    omega
  · exact Nat.le_of_not_lt hsize

variable {p : ShiftPacking}

theorem pack_eq_some {left right : UInt16} {key : UInt32} (h : p.pack left right = some key) :
    p.lefts.contains left = true ∧ p.rights.contains right = true ∧
      key = left.toUInt32 <<< UInt32.ofNat p.shift ||| (right.toUInt32 &&& p.mask) := by
  obtain ⟨block, hblock, hkey⟩ := Option.bind_eq_some_iff.1 h
  unfold leftBlock? at hblock
  unfold packInto at hkey
  split_ifs at hblock with hleft
  split_ifs at hkey with hright
  obtain rfl := Option.some.inj hblock
  exact ⟨hleft, hright, (Option.some.inj hkey).symm⟩

theorem Fits.toNat_shift (hp : p.Fits) : (UInt32.ofNat p.shift).toNat % 32 = p.shift := by
  have := hp.shift_le
  change p.shift % 2 ^ 32 % 32 = p.shift
  omega

theorem Fits.lt_stop {left : UInt16} (h : p.lefts.contains left = true) :
    left.toNat < p.lefts.stop.toNat := by
  simp only [Interval.contains, Bool.and_eq_true, decide_eq_true_iff,
    UInt16.lt_iff_toNat_lt] at h
  exact h.2

/-- The number that a key is. -/
theorem Fits.toNat_key (hp : p.Fits) {left right : UInt16} {key : UInt32}
    (h : p.pack left right = some key) :
    key.toNat = left.toNat * 2 ^ p.shift + right.toNat := by
  obtain ⟨hleft, hright, rfl⟩ := pack_eq_some h
  have hlt := hp.rights_lt right hright
  have hstop := Fits.lt_stop hleft
  have hsize := hp.size
  have hsize_le := hp.size_le
  have hpos : 0 < 2 ^ p.shift := Nat.two_pow_pos _
  have hmul : left.toNat * 2 ^ p.shift + 2 ^ p.shift ≤ p.size := by
    rw [hsize, ← Nat.succ_mul]
    exact Nat.mul_le_mul_right _ hstop
  have hshift : (left.toUInt32 <<< UInt32.ofNat p.shift).toNat = left.toNat <<< p.shift := by
    rw [UInt32.toNat_shiftLeft, hp.toNat_shift, UInt16.toNat_toUInt32, Nat.shiftLeft_eq]
    exact Nat.mod_eq_of_lt (by omega)
  have hmask : (right.toUInt32 &&& p.mask).toNat = right.toNat := by
    rw [UInt32.toNat_and, hp.mask, Nat.and_two_pow_sub_one_eq_mod, UInt16.toNat_toUInt32]
    exact Nat.mod_eq_of_lt hlt
  rw [UInt32.toNat_or, hshift, hmask, ← Nat.shiftLeft_add_eq_or_of_lt hlt, Nat.shiftLeft_eq]

/-- The pair of a key is the pair it was packed from. -/
theorem Fits.unpack_of_pack (hp : p.Fits) {left right : UInt16} {key : UInt32}
    (h : p.pack left right = some key) :
    p.unpack key = some (left, right) ∧ key.toNat < p.size := by
  have hkey := hp.toNat_key h
  obtain ⟨hleft, hright, -⟩ := pack_eq_some h
  have hlt := hp.rights_lt right hright
  have hstop := Fits.lt_stop hleft
  have hpos : 0 < 2 ^ p.shift := Nat.two_pow_pos _
  have hsize : key.toNat < p.size := by
    have : left.toNat * 2 ^ p.shift + 2 ^ p.shift ≤ p.size := by
      rw [hp.size, ← Nat.succ_mul]
      exact Nat.mul_le_mul_right _ hstop
    omega
  have hleft' : (key >>> UInt32.ofNat p.shift).toUInt16 = left := by
    apply UInt16.toNat_inj.1
    rw [UInt32.toNat_toUInt16, UInt32.toNat_shiftRight, hp.toNat_shift, hkey,
      Nat.shiftRight_eq_div_pow, Nat.add_comm, Nat.add_mul_div_right _ _ hpos,
      Nat.div_eq_of_lt hlt, Nat.zero_add]
    exact Nat.mod_eq_of_lt left.toNat_lt
  have hright' : (key &&& p.mask).toUInt16 = right := by
    apply UInt16.toNat_inj.1
    rw [UInt32.toNat_toUInt16, UInt32.toNat_and, hp.mask, Nat.and_two_pow_sub_one_eq_mod, hkey,
      Nat.mul_add_mod_self_right, Nat.mod_eq_of_lt hlt]
    exact Nat.mod_eq_of_lt right.toNat_lt
  refine ⟨?_, hsize⟩
  unfold unpack
  dsimp only
  rw [if_pos hsize, hleft', hright', hleft, hright]
  rfl

end ShiftPacking

namespace BitVectorPacking

variable {bounds : ClassBounds} {pairs : List (UInt16 × UInt16)} {p : BitVectorPacking}
  {left right : UInt16} {key : UInt32}

theorem build_ok (h : build bounds pairs = .ok p) : ShiftPacking.build bounds = .ok p.base ∧
    p.keys = (SortedSearch.sortedDistinct
      (pairs.filterMap fun pair => p.base.pack pair.1 pair.2)).toArray := by
  unfold build at h
  cases hbase : ShiftPacking.build bounds with
  | error e => rw [hbase] at h; cases h
  | ok base =>
    rw [hbase] at h
    obtain rfl := Except.ok.inj h
    exact ⟨rfl, rfl⟩

theorem build_fits (h : build bounds pairs = .ok p) : p.base.Fits :=
  ShiftPacking.build_fits (build_ok h).1

/-- The key of a pair, as a key of the shift packing that it restricts. -/
theorem base_of_pack
    (h : ((p.leftBlock? left).bind fun block => p.packInto block right) = some key) :
    p.base.pack left right = some key ∧ p.isValid key = true := by
  obtain ⟨block, hblock, hkey⟩ := Option.bind_eq_some_iff.1 h
  obtain ⟨hbase, hvalid⟩ := Option.filter_eq_some_iff.1 hkey
  exact ⟨Option.bind_eq_some_iff.2 ⟨block, hblock, hbase⟩, hvalid⟩

/-- A key that is valid is one of the shift packing. -/
theorem unpack_of_pack (hp : p.base.Fits)
    (h : ((p.leftBlock? left).bind fun block => p.packInto block right) = some key) :
    p.unpack key = some (left, right) ∧ key.toNat < p.base.size := by
  obtain ⟨hbase, hvalid⟩ := base_of_pack h
  obtain ⟨hunpack, hlt⟩ := hp.unpack_of_pack hbase
  exact ⟨by rw [unpack, if_pos hvalid, hunpack], hlt⟩

end BitVectorPacking

end ChartParsing
