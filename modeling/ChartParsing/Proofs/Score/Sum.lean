import ChartParsing.Proofs.Score.Bits
import Mathlib.Tactic.Set

/-!
# Sums of scores

The sum of two finite scores is the integer sum of their units, rounded to 24
significant bits and cut off at the infinities. Addition is therefore monotone
wherever it does not meet the score of what is absent.
-/

namespace ChartParsing.Score

open Float.Model (Format UnpackedFloat totalExponent)
open Float.Model.UnpackedFloat Numeral

/-- An integer rounded to 24 significant bits, whatever its sign. -/
def roundSigned (z : Int) : Int := z.sign * roundUnits z.natAbs

/-- The nearest integer between the infinities. -/
def clamp (z : Int) : Int := max (-(infiniteUnits : Int)) (min (infiniteUnits : Int) z)

theorem clamp_mono {y z : Int} (h : y ≤ z) : clamp y ≤ clamp z := by
  unfold clamp
  omega

theorem roundSigned_of_nonneg {z : Int} (h : 0 ≤ z) : roundSigned z = roundUnits z.natAbs := by
  rcases h.lt_or_eq with h | rfl
  · rw [roundSigned, Int.sign_eq_one_of_pos h, Int.one_mul]
  · rfl

theorem roundSigned_of_nonpos {z : Int} (h : z ≤ 0) : roundSigned z = -roundUnits z.natAbs := by
  rcases h.lt_or_eq with h | rfl
  · rw [roundSigned, Int.sign_eq_neg_one_of_neg h, Int.neg_one_mul]
  · rfl

theorem roundSigned_mono {y z : Int} (h : y ≤ z) : roundSigned y ≤ roundSigned z := by
  rcases le_total 0 y with hy | hy
  · rw [roundSigned_of_nonneg hy, roundSigned_of_nonneg (hy.trans h)]
    exact_mod_cast roundUnits_mono (by omega)
  · rcases le_total 0 z with hz | hz
    · rw [roundSigned_of_nonpos hy, roundSigned_of_nonneg hz]
      omega
    · rw [roundSigned_of_nonpos hy, roundSigned_of_nonpos hz]
      have := roundUnits_mono (show z.natAbs ≤ y.natAbs by omega)
      omega

theorem targetExponent_eq (n : Nat) (e : Int) :
    Format.binary32.targetExponent (totalExponent n e) = max ((n.log2 : Int) + e - 23) (-149) := by
  change max ((n.log2 : Int) + 1 + e - (24 : Nat)) (-149) = _
  omega

theorem log2_mul_two_pow {n : Nat} (h : 0 < n) (k : Nat) : (n * 2 ^ k).log2 = n.log2 + k := by
  have hlo := Nat.log2_self_le (Nat.ne_of_gt h)
  have hhi : n < 2 ^ (n.log2 + 1) := Nat.lt_log2_self
  refine (Nat.log2_eq_iff (Nat.ne_of_gt (Nat.mul_pos h (Nat.two_pow_pos k)))).2 ⟨?_, ?_⟩
  · rw [Nat.pow_add]
    exact Nat.mul_le_mul_right _ hlo
  · rw [show n.log2 + k + 1 = n.log2 + 1 + k by omega, Nat.pow_add]
    exact Nat.mul_lt_mul_of_pos_right hhi (Nat.two_pow_pos k)

theorem roundUnits_of_dvd {n : Nat} (h : 2 ^ lostBits n ∣ n) : roundUnits n = n := by
  obtain ⟨m, hm⟩ := h
  have hround : roundHalfEven n (2 ^ lostBits n) = m := by
    have := roundHalfEven_mul_right m 1 (Nat.two_pow_pos (lostBits n))
    rwa [Nat.one_mul, roundHalfEven_one, Nat.mul_comm, ← hm] at this
  rw [roundUnits, hround, Nat.mul_comm, ← hm]

/-- A multiple of a power of two that has 24 bits is its own rounding. -/
theorem roundUnits_mul_two_pow {n : Nat} (h : n < 2 ^ 24) (k : Nat) :
    roundUnits (n * 2 ^ k) = n * 2 ^ k := by
  rcases Nat.eq_zero_or_pos n with rfl | hn
  · rw [Nat.zero_mul]
    decide
  · have hlog : n.log2 < 24 := (Nat.log2_lt (Nat.ne_of_gt hn)).2 h
    have hlost : lostBits (n * 2 ^ k) ≤ k := by
      rw [lostBits, log2_mul_two_pow hn]
      omega
    exact roundUnits_of_dvd (Nat.dvd_mul_left_of_dvd (Nat.pow_dvd_pow 2 hlost) n)

/-- A number of single precision is its own rounding. -/
theorem Canonical.roundUnits_eq {m : Nat} {e : Int} (h : Canonical m e) :
    roundUnits (m * 2 ^ (e + 149).toNat) = m * 2 ^ (e + 149).toNat :=
  roundUnits_mul_two_pow h.lt _

/-- What the first shift keeps is rounded; it has 25 bits only when it is a power of two. -/
theorem roundHalfEven_bounds {n : Nat} :
    roundHalfEven n (2 ^ lostBits n) ≤ 2 ^ 24 ∧
      (0 < lostBits n → 2 ^ 23 ≤ roundHalfEven n (2 ^ lostBits n)) := by
  have hpos := Nat.two_pow_pos (lostBits n)
  constructor
  · have h := roundUnits_le_two_pow n
    rw [roundUnits, Nat.pow_add, Nat.mul_comm (2 ^ lostBits n)] at h
    exact Nat.le_of_mul_le_mul_right h hpos
  · intro hk
    have h := two_pow_le_roundUnits hk
    rw [roundUnits, Nat.pow_add, Nat.mul_comm (2 ^ lostBits n)] at h
    exact Nat.le_of_mul_le_mul_right h hpos

/-- Shifting to the target exponent and rounding leaves the units rounded. -/
theorem roundWithAccuracy_exact (s : Sign) {m : Nat} {e : Int} (hm : 0 < m) (he : -149 ≤ e)
    (hle : e ≤ Format.binary32.targetExponent (totalExponent m e)) :
    ∃ m' e' hm', roundWithAccuracy Format.binary32 s m e .exact = .finite s m' e' hm' ∧
      Canonical m' e' ∧ m' * 2 ^ (e' + 149).toNat = roundUnits (m * 2 ^ (e + 149).toNat) := by
  set n := m * 2 ^ (e + 149).toNat with hn
  set t := Format.binary32.targetExponent (totalExponent m e) with ht'
  have ht : t = max ((m.log2 : Int) + e - 23) (-149) := targetExponent_eq m e
  have hlost : lostBits n = (t + 149).toNat := by
    rw [lostBits, hn, log2_mul_two_pow hm]
    omega
  have hsplit : 2 ^ lostBits n = 2 ^ (t - e).toNat * 2 ^ (e + 149).toNat := by
    rw [hlost, ← Nat.pow_add]
    congr 1
    omega
  -- the first shift drops the bits that are lost, and rounds
  set r := (ExtendedMantissa.ofMantissaAndAccuracy m .exact >>> (t - e).toNat).roundedMantissa
    with hr
  have hround : r = roundHalfEven n (2 ^ lostBits n) := by
    rw [hr, ((holds_exact m).shiftRight _).roundedMantissa, hsplit, hn,
      roundHalfEven_mul_right _ _ (Nat.two_pow_pos _)]
  obtain ⟨hr24, hr23⟩ := @roundHalfEven_bounds n
  rw [← hround] at hr24 hr23
  have hunits : r * 2 ^ (t + 149).toNat = roundUnits n := by
    rw [hround, ← hlost]
    rfl
  have hexp : e + ((t - e).toNat : Int) = t := by omega
  have hmin : -149 ≤ t := by omega
  have hfinal : roundWithAccuracy Format.binary32 s m e .exact =
      let t' := Format.binary32.targetExponent (totalExponent r t)
      let em := ExtendedMantissa.ofMantissaAndAccuracy r .exact >>> (t' - t).toNat
      if h : em.mantissa = 0 then .zero s
      else .finite s em.mantissa (t + (t' - t).toNat) (Nat.pos_of_ne_zero h) := by
    unfold roundWithAccuracy shiftToTargetExponent shiftToExponent
    dsimp only
    rw [← ht', ← hr, hexp]
  have hrpos : 0 < r := by
    rcases Nat.eq_zero_or_pos (lostBits n) with h0 | h0
    · rw [hround, h0, Nat.pow_zero, roundHalfEven_one, hn]
      exact Nat.mul_pos hm (Nat.two_pow_pos _)
    · have := hr23 h0
      omega
  have hk : lostBits n = 0 ↔ t = -149 := by omega
  rcases hr24.lt_or_eq with hlt | heq
  · -- the mantissa has room, and the second shift does nothing
    have hlog : r.log2 ≤ 23 := by
      have := (Nat.log2_lt (by omega)).2 hlt
      omega
    have hfull : -149 < t → r.log2 = 23 := fun h =>
      (Nat.log2_eq_iff (by omega)).2 ⟨hr23 (by omega), hlt⟩
    have hno : (Format.binary32.targetExponent (totalExponent r t) - t).toNat = 0 := by
      rw [targetExponent_eq]
      omega
    have hem : (ExtendedMantissa.ofMantissaAndAccuracy r .exact >>> 0).mantissa = r := rfl
    refine ⟨r, t, hrpos, ?_, ⟨hmin, hlt, fun h => hr23 (by omega)⟩, hunits⟩
    rw [hfinal]
    dsimp only
    rw [hno]
    have hne : (ExtendedMantissa.ofMantissaAndAccuracy r .exact >>> 0).mantissa ≠ 0 := by
      rw [hem]
      exact Nat.ne_of_gt hrpos
    rw [dif_neg hne]
    exact finite_congr s _ _ hem (by omega)
  · -- rounding has carried into a power of two
    have hone : (Format.binary32.targetExponent (totalExponent r t) - t).toNat = 1 := by
      rw [targetExponent_eq, heq, Nat.log2_two_pow]
      omega
    have hem : (ExtendedMantissa.ofMantissaAndAccuracy r .exact >>> 1).mantissa = 2 ^ 23 := by
      rw [((holds_exact r).shiftRight 1).mantissa]
      omega
    refine ⟨2 ^ 23, t + 1, by omega, ?_, ⟨by omega, by omega, fun _ => le_rfl⟩, ?_⟩
    · rw [hfinal]
      dsimp only
      rw [hone]
      rw [dif_neg (by omega)]
      exact finite_congr s _ _ hem (by omega)
    · rw [← hunits, heq, show (t + 1 + 149).toNat = (t + 149).toNat + 1 by omega, Nat.pow_succ]
      omega

/-- Decreasing an exponent keeps the units. -/
theorem decreaseExponent_units {m : Nat} {e t : Int} (ht : -149 ≤ t) (he : -149 ≤ e) :
    (decreaseExponent m e t).1 * 2 ^ ((decreaseExponent m e t).2 + 149).toNat
      = m * 2 ^ (e + 149).toNat := by
  simp only [decreaseExponent, Nat.shiftLeft_eq]
  rw [Nat.mul_assoc, ← Nat.pow_add]
  congr 2
  omega

theorem round_units (s : Sign) {m : Nat} {e : Int} (hm : 0 < m) (he : -149 ≤ e) :
    ∃ m' e' hm', round Format.binary32 s m e = .finite s m' e' hm' ∧
      Canonical m' e' ∧ m' * 2 ^ (e' + 149).toNat = roundUnits (m * 2 ^ (e + 149).toNat) := by
  set t := Format.binary32.targetExponent (totalExponent m e) with ht'
  have ht : t = max ((m.log2 : Int) + e - 23) (-149) := targetExponent_eq m e
  have hpos : 0 < (decreaseExponent m e t).1 := by
    simp only [decreaseExponent, Nat.shiftLeft_eq]
    exact Nat.mul_pos hm (Nat.two_pow_pos _)
  have htarget : Format.binary32.targetExponent
      (totalExponent (decreaseExponent m e t).1 (decreaseExponent m e t).2) = t := by
    rw [targetExponent_eq]
    simp only [decreaseExponent, Nat.shiftLeft_eq, log2_mul_two_pow hm]
    omega
  have hle : (decreaseExponent m e t).2 ≤ t := by
    simp only [decreaseExponent]
    omega
  have hmin : -149 ≤ (decreaseExponent m e t).2 := by
    simp only [decreaseExponent]
    omega
  have h := roundWithAccuracy_exact s hpos hmin (by rw [htarget]; exact hle)
  rw [decreaseExponent_units (by omega) he] at h
  exact h

/-- A regular number that is not infinite, nor NaN. -/
def Finite : UnpackedFloat → Prop
  | .finite _ m e _ => Canonical m e
  | .zero _ => True
  | _ => False

theorem normalize_units (z : Int) {e : Int} (he : -149 ≤ e) (s : Sign) :
    Finite (UnpackedFloat.normalize Format.binary32 z e s) ∧
      unitsOf (UnpackedFloat.normalize Format.binary32 z e s)
        = roundSigned (z * (2 ^ (e + 149).toNat : Nat)) := by
  have hpow : (0 : Int) < (2 ^ (e + 149).toNat : Nat) := by
    exact_mod_cast Nat.two_pow_pos _
  unfold UnpackedFloat.normalize
  rcases lt_trichotomy z 0 with hz | rfl | hz
  · obtain ⟨m', e', hm', hround, hcan, hunits⟩ :=
      round_units .negative (m := (-z).toNat) (by omega) he
    rw [compare_lt_iff_lt.2 hz]
    dsimp only
    rw [hround]
    refine ⟨hcan, ?_⟩
    have hneg : z * (2 ^ (e + 149).toNat : Nat) ≤ 0 :=
      Int.mul_nonpos_of_nonpos_of_nonneg (by omega) (by omega)
    rw [roundSigned_of_nonpos hneg, Int.natAbs_mul, Int.natAbs_natCast]
    dsimp only [unitsOf, Sign.apply]
    rw [hunits, show (-z).toNat = z.natAbs by omega]
  · rw [compare_eq_iff_eq.2 rfl]
    dsimp only
    rw [Int.zero_mul]
    exact ⟨trivial, rfl⟩
  · obtain ⟨m', e', hm', hround, hcan, hunits⟩ :=
      round_units .positive (m := z.toNat) (by omega) he
    rw [compare_gt_iff_gt.2 hz]
    dsimp only
    rw [hround]
    refine ⟨hcan, ?_⟩
    have hnonneg : 0 ≤ z * (2 ^ (e + 149).toNat : Nat) := Int.mul_nonneg (by omega) (by omega)
    rw [roundSigned_of_nonneg hnonneg, Int.natAbs_mul, Int.natAbs_natCast]
    dsimp only [unitsOf, Sign.apply]
    rw [hunits, show z.toNat = z.natAbs by omega]

theorem roundSigned_unitsOf {u : UnpackedFloat} (h : Finite u) :
    roundSigned (unitsOf u) = unitsOf u := by
  cases u with
  | notANumber => exact h.elim
  | infinity s => exact h.elim
  | zero s =>
    change roundSigned 0 = 0
    decide
  | finite s m e hm =>
    have hr := Canonical.roundUnits_eq h
    cases s
    · dsimp only [unitsOf, Sign.apply]
      rw [roundSigned_of_nonpos (by omega), Int.natAbs_neg, Int.natAbs_natCast, hr]
    · dsimp only [unitsOf, Sign.apply]
      rw [roundSigned_of_nonneg (by omega), Int.natAbs_natCast, hr]

theorem units_shift (s : Sign) {m : Nat} {e t : Int} (hm : 0 < m) (ht : -149 ≤ t) (hle : t ≤ e) :
    unitsOf (.finite s m e hm)
      = s.apply (decreaseExponent m e t).1 * (2 ^ (t + 149).toNat : Nat) := by
  have h := decreaseExponent_units (m := m) ht (by omega : -149 ≤ e)
  have he : (decreaseExponent m e t).2 = t := by
    simp only [decreaseExponent]
    omega
  rw [he] at h
  cases s
  · dsimp only [unitsOf, Sign.apply]
    rw [← h]
    push_cast
    rw [Int.neg_mul]
  · dsimp only [unitsOf, Sign.apply]
    rw [← h]
    push_cast
    rfl

/-- The sum of two finite numbers, before it is packed, is the rounded sum of the units. -/
theorem add_units {u v : UnpackedFloat} (hu : Finite u) (hv : Finite v) :
    Finite (add Format.binary32 u v) ∧
      unitsOf (add Format.binary32 u v) = roundSigned (unitsOf u + unitsOf v) := by
  cases u with
  | notANumber => exact hu.elim
  | infinity s => exact hu.elim
  | zero s =>
    cases v with
    | notANumber => exact hv.elim
    | infinity t => exact hv.elim
    | zero t =>
      cases s <;> cases t <;> exact ⟨trivial, rfl⟩
    | finite t n e hn =>
      refine ⟨hv, ?_⟩
      change unitsOf (.finite t n e hn) = roundSigned (0 + unitsOf (.finite t n e hn))
      rw [Int.zero_add, roundSigned_unitsOf hv]
  | finite s m d hm =>
    cases v with
    | notANumber => exact hv.elim
    | infinity t => exact hv.elim
    | zero t =>
      refine ⟨hu, ?_⟩
      change unitsOf (.finite s m d hm) = roundSigned (unitsOf (.finite s m d hm) + 0)
      rw [Int.add_zero, roundSigned_unitsOf hu]
    | finite t n e hn =>
      have hmin : -149 ≤ min d e := le_min hu.least hv.least
      have h := normalize_units (s.apply (decreaseExponent m d (min d e)).1
        + t.apply (decreaseExponent n e (min d e)).1) hmin .positive
      rw [Int.add_mul, ← units_shift s hm hmin (min_le_left d e),
        ← units_shift t hn hmin (min_le_right d e)] at h
      exact h

/-- Packing cuts the units off at the infinities. -/
theorem unitsOf_unpack_pack {u : UnpackedFloat} (h : Finite u) :
    (UnpackedFloat.unpack Format.binary32 (UnpackedFloat.pack Format.binary32 u)).isNaN = false ∧
    unitsOf (UnpackedFloat.unpack Format.binary32 (UnpackedFloat.pack Format.binary32 u))
      = clamp (unitsOf u) := by
  cases u with
  | notANumber => exact h.elim
  | infinity s => exact h.elim
  | zero s => cases s <;> exact ⟨by decide, by decide⟩
  | finite s m e hm =>
    have hcan : Canonical m e := h
    rw [unpack_pack_finite s hm hcan]
    by_cases he : e ≤ 104
    · have hlt := hcan.units_lt_infinite he
      rw [if_pos he]
      refine ⟨rfl, ?_⟩
      cases s <;> dsimp only [unitsOf, Sign.apply, clamp] <;> omega
    · have hge : infiniteUnits ≤ m * 2 ^ (e + 149).toNat := by
        calc infiniteUnits = 2 ^ 23 * 2 ^ 254 := by decide
          _ ≤ m * 2 ^ (e + 149).toNat :=
            Nat.mul_le_mul (hcan.full (by omega)) (Nat.pow_le_pow_right (by omega) (by omega))
      rw [if_neg he]
      refine ⟨rfl, ?_⟩
      cases s <;> dsimp only [unitsOf, Sign.apply, clamp] <;> omega

end ChartParsing.Score
