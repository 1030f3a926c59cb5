import ChartParsing.Proofs.Score.Rounding
import ChartParsing.Score

/-!
# Scores as integers

A score that is a number stands for an integer, the multiple of the least positive
number that it is; the infinities stand for the power of two that comes after the
largest number. The comparisons of scores are those of these integers.
-/

namespace ChartParsing.Score

open Float.Model (Format UnpackedFloat totalExponent)
open Float.Model.UnpackedFloat

/-- The units of infinity. -/
def infiniteUnits : Nat := 2 ^ 24 * 2 ^ 253

/-- The multiple of the least positive number that a number taken apart stands for. -/
def unitsOf : UnpackedFloat → Int
  | .infinity s => s.apply infiniteUnits
  | .notANumber => 0
  | .zero _ => 0
  | .finite s m e _ => s.apply (m * 2 ^ (e + 149).toNat : Nat)

/-- A mantissa has 24 bits, and fewer only at the least exponent. -/
structure Canonical (m : Nat) (e : Int) : Prop where
  least : -149 ≤ e
  lt : m < 2 ^ 24
  full : -149 < e → 2 ^ 23 ≤ m

/-- A number that single precision has, taken apart. -/
def Regular : UnpackedFloat → Prop
  | .finite _ m e _ => Canonical m e ∧ e ≤ 104
  | _ => True

theorem finite_congr (s : Sign) {m n : Nat} {d e : Int} (hm : 0 < m) (hn : 0 < n) (hmn : m = n)
    (hde : d = e) : UnpackedFloat.finite s m d hm = .finite s n e hn := by
  subst hmn hde
  rfl

theorem Canonical.units_lt {m n : Nat} {d e : Int} (hm : Canonical m d) (hn : Canonical n e)
    (h : d < e) : m * 2 ^ (d + 149).toNat < n * 2 ^ (e + 149).toNat := by
  have hd := hm.least
  have hfull := hn.full (by omega)
  calc m * 2 ^ (d + 149).toNat < 2 ^ 24 * 2 ^ (d + 149).toNat :=
        Nat.mul_lt_mul_of_pos_right hm.lt (Nat.two_pow_pos _)
    _ = 2 ^ 23 * 2 ^ ((d + 149).toNat + 1) := by rw [Nat.pow_succ]; omega
    _ ≤ 2 ^ 23 * 2 ^ (e + 149).toNat :=
        Nat.mul_le_mul_left _ (Nat.pow_le_pow_right (by omega) (by omega))
    _ ≤ n * 2 ^ (e + 149).toNat := Nat.mul_le_mul_right _ hfull

theorem Canonical.units_lt_infinite {m : Nat} {e : Int} (hm : Canonical m e) (he : e ≤ 104) :
    m * 2 ^ (e + 149).toNat < infiniteUnits := by
  have hpow : 2 ^ (e + 149).toNat ≤ 2 ^ 253 :=
    Nat.pow_le_pow_right (by omega) (by omega)
  calc m * 2 ^ (e + 149).toNat < 2 ^ 24 * 2 ^ (e + 149).toNat :=
        Nat.mul_lt_mul_of_pos_right hm.lt (Nat.two_pow_pos _)
    _ ≤ infiniteUnits := Nat.mul_le_mul_left _ hpow

/-- The order by exponent, then by mantissa, is the order of the units. -/
theorem Canonical.compare_units {m n : Nat} {d e : Int} (hm : Canonical m d)
    (hn : Canonical n e) :
    (compare d e).then (compare m n) =
      compare (m * 2 ^ (d + 149).toNat) (n * 2 ^ (e + 149).toNat) := by
  rcases lt_trichotomy d e with h | rfl | h
  · rw [compare_lt_iff_lt.2 h, compare_lt_iff_lt.2 (hm.units_lt hn h)]
    rfl
  · have hpos : 0 < 2 ^ (d + 149).toNat := Nat.two_pow_pos _
    rw [compare_eq_iff_eq.2 rfl, Ordering.then]
    rcases lt_trichotomy m n with h | rfl | h
    · rw [compare_lt_iff_lt.2 h, compare_lt_iff_lt.2 (Nat.mul_lt_mul_of_pos_right h hpos)]
    · rw [compare_eq_iff_eq.2 rfl, compare_eq_iff_eq.2 rfl]
    · rw [compare_gt_iff_gt.2 h, compare_gt_iff_gt.2 (Nat.mul_lt_mul_of_pos_right h hpos)]
  · rw [compare_gt_iff_gt.2 h, compare_gt_iff_gt.2 (hn.units_lt hm h)]
    rfl

theorem units_pos {m : Nat} (e : Int) (h : 0 < m) : 0 < m * 2 ^ (e + 149).toNat :=
  Nat.mul_pos h (Nat.two_pow_pos _)

theorem infiniteUnits_pos : 0 < infiniteUnits := by decide

theorem compare_natCast (m n : Nat) : compare (m : Int) n = compare m n := by
  rcases lt_trichotomy m n with h | rfl | h
  · rw [compare_lt_iff_lt.2 h, compare_lt_iff_lt.2 (by omega)]
  · rw [compare_eq_iff_eq.2 rfl, compare_eq_iff_eq.2 rfl]
  · rw [compare_gt_iff_gt.2 h, compare_gt_iff_gt.2 (by omega)]

theorem compare_neg_natCast (m n : Nat) :
    compare (-(m : Int)) (-(n : Int)) = (compare m n).swap := by
  rcases lt_trichotomy m n with h | rfl | h
  · rw [compare_lt_iff_lt.2 h, compare_gt_iff_gt.2 (by omega)]
    rfl
  · rw [compare_eq_iff_eq.2 rfl, compare_eq_iff_eq.2 rfl]
    rfl
  · rw [compare_gt_iff_gt.2 h, compare_lt_iff_lt.2 (by omega)]
    rfl

/-- Numbers compare as their units do. -/
theorem compare_eq {u v : UnpackedFloat} (hu : Regular u) (hv : Regular v)
    (hun : u.isNaN = false) (hvn : v.isNaN = false) :
    u.compare v = some (compare (unitsOf u) (unitsOf v)) := by
  have hinf := infiniteUnits_pos
  -- but for two numbers of one sign, the signs and infinities settle the order
  have hlt {a b : Int} (h : a < b) : some Ordering.lt = some (compare a b) := by
    rw [compare_lt_iff_lt.2 h]
  have hgt {a b : Int} (h : b < a) : some Ordering.gt = some (compare a b) := by
    rw [compare_gt_iff_gt.2 h]
  cases u with
  | notANumber => cases hun
  | infinity s =>
    cases v with
    | notANumber => cases hvn
    | infinity t => cases s <;> cases t <;> decide
    | zero t =>
      cases s
      · exact hlt (by dsimp only [unitsOf, Sign.apply]; omega)
      · exact hgt (by dsimp only [unitsOf, Sign.apply]; omega)
    | finite t n e hn =>
      have hfin := hv.1.units_lt_infinite hv.2
      cases s
      · exact hlt (by cases t <;> dsimp only [unitsOf, Sign.apply] <;> omega)
      · exact hgt (by cases t <;> dsimp only [unitsOf, Sign.apply] <;> omega)
  | zero s =>
    cases v with
    | notANumber => cases hvn
    | infinity t =>
      cases t
      · exact hgt (by dsimp only [unitsOf, Sign.apply]; omega)
      · exact hlt (by dsimp only [unitsOf, Sign.apply]; omega)
    | zero t => exact congrArg some (compare_eq_iff_eq.2 rfl).symm
    | finite t n e hn =>
      have hpos := units_pos e hn
      cases t
      · exact hgt (by dsimp only [unitsOf, Sign.apply]; omega)
      · exact hlt (by dsimp only [unitsOf, Sign.apply]; omega)
  | finite s m d hm =>
    have hpos := units_pos d hm
    cases v with
    | notANumber => cases hvn
    | infinity t =>
      have hfin := hu.1.units_lt_infinite hu.2
      cases t
      · cases s <;> exact hgt (by dsimp only [unitsOf, Sign.apply]; omega)
      · cases s <;> exact hlt (by dsimp only [unitsOf, Sign.apply]; omega)
    | zero t =>
      cases s
      · exact hlt (by dsimp only [unitsOf, Sign.apply]; omega)
      · exact hgt (by dsimp only [unitsOf, Sign.apply]; omega)
    | finite t n e hn =>
      have hpos' := units_pos e hn
      cases s <;> cases t
      · exact congrArg some ((congrArg Ordering.swap (hu.1.compare_units hv.1)).trans
          (compare_neg_natCast _ _).symm)
      · exact hlt (by dsimp only [unitsOf, Sign.apply]; omega)
      · exact hgt (by dsimp only [unitsOf, Sign.apply]; omega)
      · exact congrArg some ((hu.1.compare_units hv.1).trans (compare_natCast _ _).symm)

end ChartParsing.Score
