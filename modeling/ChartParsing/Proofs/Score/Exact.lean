import ChartParsing.Proofs.Score.Order

/-!
# Exact sums

A sum of scores is exact if it stands for the sum of the integers that its parts stand for.
What is found of exact sums is found of the integers, and holds of the scores again: where the
integers of two scores add up to no more than that of a third, so do the scores.
-/

namespace ChartParsing.Score

open Float.Model (Format UnpackedFloat)
open Float.Model.UnpackedFloat

/-- A score that is a number and not infinite. -/
def IsFinite (x : Score) : Prop := Finite x.toModel.unpack

/-- The sum of two scores, if both are present, is finite and has lost nothing to rounding. -/
def Exact (x y : Score) : Prop :=
  absent < x → absent < y → IsFinite (x + y) ∧ units (x + y) = units x + units y

theorem IsFinite.present {x : Score} (h : IsFinite x) : absent < x := by
  rw [not_low_iff]
  unfold IsFinite at h
  rintro (hu | hu)
  · rw [hu] at h
    exact h
  · rw [hu] at h
    exact h

theorem isFinite_zero : IsFinite 0 := trivial

theorem zero_ne_absent : (0 : Score) ≠ absent := ne_absent_of_lt isFinite_zero.present

theorem units_zero : units 0 = 0 := rfl

theorem add_zero_zero : (0 : Score) + 0 = 0 := by decide +kernel

/-- Nothing is lost when zero is added to what is absent or zero. -/
theorem add_zero_of_absent_or_zero {x : Score} (h : x = absent ∨ x = 0) : x + 0 = x := by
  rcases h with rfl | rfl
  · decide +kernel
  · exact add_zero_zero

theorem exact_zero {x : Score} (h : x = absent ∨ x = 0) : Exact x 0 := by
  intro hpresent _
  obtain rfl := h.resolve_left (ne_absent_of_lt hpresent)
  rw [add_zero_zero]
  exact ⟨isFinite_zero, rfl⟩

/-- A sum of three, added from the left, stands for the sum of what the three stand for. -/
theorem Exact.add_add {x y z : Score} (h : Exact x y) (h' : Exact (x + y) z) (hx : absent < x)
    (hy : absent < y) (hz : absent < z) :
    IsFinite (x + y + z) ∧ units (x + y + z) = units x + units y + units z := by
  obtain ⟨hfinite, hsum⟩ := h hx hy
  obtain ⟨hfinite', hsum'⟩ := h' hfinite.present hz
  exact ⟨hfinite', by rw [hsum', hsum]⟩

/-- Two scores whose integers add up to no more than that of a third have no greater sum. -/
theorem IsFinite.add_le {x y z : Score} (hx : IsFinite x) (hy : IsFinite y) (hz : IsFinite z)
    (h : units x + units y ≤ units z) : x + y ≤ z := by
  obtain ⟨hnan, hsum⟩ := units_add hx hy
  refine le_iff.2 ⟨hnan, isNaN_of_present hz.present, ?_⟩
  calc units (x + y) = clamp (roundSigned (units x + units y)) := hsum
    _ ≤ clamp (roundSigned (units z)) := clamp_mono (roundSigned_mono h)
    _ = units z := clamp_roundSigned_units hz

theorem IsFinite.le_add {x y z : Score} (hx : IsFinite x) (hy : IsFinite y) (hz : IsFinite z)
    (h : units z ≤ units x + units y) : z ≤ x + y := by
  obtain ⟨hnan, hsum⟩ := units_add hx hy
  refine le_iff.2 ⟨isNaN_of_present hz.present, hnan, ?_⟩
  calc units z = clamp (roundSigned (units z)) := (clamp_roundSigned_units hz).symm
    _ ≤ clamp (roundSigned (units x + units y)) := clamp_mono (roundSigned_mono h)
    _ = units (x + y) := hsum.symm

theorem eq_absent_of_unpack {x : Score} (h : x.toModel.unpack = .infinity .negative) :
    x = absent := by
  apply eq_absent_of_units
  · rw [isNaN_eq, h]
    rfl
  · rw [units, h]
    rfl

/-- What is absent added to what is finite is absent. -/
theorem IsFinite.add_absent {x : Score} (hx : IsFinite x) : x + absent = absent := by
  apply eq_absent_of_unpack
  rw [unpack_add, unpack_absent]
  unfold IsFinite at hx
  cases hu : x.toModel.unpack with
  | notANumber => rw [hu] at hx; exact hx.elim
  | infinity s => rw [hu] at hx; exact hx.elim
  | zero s => exact unpack_pack_infinity .negative
  | finite s m e hm => exact unpack_pack_infinity .negative

theorem IsFinite.absent_add {x : Score} (hx : IsFinite x) : absent + x = absent := by
  apply eq_absent_of_unpack
  rw [unpack_add, unpack_absent]
  unfold IsFinite at hx
  cases hu : x.toModel.unpack with
  | notANumber => rw [hu] at hx; exact hx.elim
  | infinity s => rw [hu] at hx; exact hx.elim
  | zero s => exact unpack_pack_infinity .negative
  | finite s m e hm => exact unpack_pack_infinity .negative

theorem absent_add_absent : absent + absent = absent := by decide +kernel

theorem beq_of_le {x y : Score} (h : x ≤ y) (h' : y ≤ x) : (x == y) = true := by
  obtain ⟨hx, hy, hle⟩ := le_iff.1 h
  obtain ⟨-, -, hge⟩ := le_iff.1 h'
  exact beq_iff.2 ⟨hx, hy, Int.le_antisymm hle hge⟩

end ChartParsing.Score
