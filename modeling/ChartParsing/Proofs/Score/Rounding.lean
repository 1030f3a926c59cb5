import ChartParsing.Numeral.Single
import Mathlib.Algebra.Group.Nat.Defs
import Mathlib.Data.Nat.Log

/-!
# Rounding to single precision

A magnitude is counted in units of the least positive number. Rounding it keeps
24 significant bits, and a half goes to the even neighbour. The machinery of guard
and sticky bits computes this rounding, and the rounding is monotone.
-/

namespace ChartParsing.Score

open Float.Model (Format totalExponent)
open Float.Model.UnpackedFloat Numeral

theorem roundHalfEven_mono {m n : Nat} (d : Nat) (h : m ≤ n) :
    roundHalfEven m d ≤ roundHalfEven n d := by
  have hq : m / d ≤ n / d := Nat.div_le_div_right h
  have hm := Nat.div_add_mod m d
  have hn := Nat.div_add_mod n d
  rcases hq.lt_or_eq with hq | hq
  · simp only [roundHalfEven]
    split_ifs <;> omega
  · have hr : m % d ≤ n % d := by
      rw [hq] at hm
      omega
    simp only [roundHalfEven, hq]
    split_ifs <;> omega

theorem div_le_roundHalfEven (n d : Nat) : n / d ≤ roundHalfEven n d := by
  simp only [roundHalfEven]
  split_ifs <;> omega

theorem roundHalfEven_le_div_succ (n d : Nat) : roundHalfEven n d ≤ n / d + 1 := by
  simp only [roundHalfEven]
  split_ifs <;> omega

theorem roundHalfEven_mul_right (n d : Nat) {c : Nat} (hc : 0 < c) :
    roundHalfEven (n * c) (d * c) = roundHalfEven n d := by
  have hlt : 2 * (n % d * c) < d * c ↔ 2 * (n % d) < d := by
    rw [← Nat.mul_assoc]
    exact Nat.mul_lt_mul_right hc
  have hgt : d * c < 2 * (n % d * c) ↔ d < 2 * (n % d) := by
    rw [← Nat.mul_assoc]
    exact Nat.mul_lt_mul_right hc
  simp only [roundHalfEven, Nat.mul_div_mul_right n d hc, Nat.mul_mod_mul_right, hlt, hgt]

@[simp] theorem roundHalfEven_one (n : Nat) : roundHalfEven n 1 = n := by
  simp [roundHalfEven, Nat.mod_one]

/-- The bits that are lost when a magnitude is held in 24 bits. -/
def lostBits (n : Nat) : Nat := n.log2 - 23

/-- The magnitude rounded to 24 significant bits. -/
def roundUnits (n : Nat) : Nat := roundHalfEven n (2 ^ lostBits n) * 2 ^ lostBits n

theorem lostBits_mono {m n : Nat} (h : m ≤ n) : lostBits m ≤ lostBits n := by
  have : m.log2 ≤ n.log2 := by
    rw [Nat.log2_eq_log_two, Nat.log2_eq_log_two]
    exact Nat.log_mono_right h
  unfold lostBits
  omega

theorem lt_two_pow_lostBits (n : Nat) : n < 2 ^ (lostBits n + 24) := by
  have h : n < 2 ^ (n.log2 + 1) := Nat.lt_log2_self
  exact h.trans_le (Nat.pow_le_pow_right (by omega) (by unfold lostBits; omega))

theorem roundUnits_le_two_pow (n : Nat) : roundUnits n ≤ 2 ^ (lostBits n + 24) := by
  have hlt : n / 2 ^ lostBits n < 2 ^ 24 := by
    apply Nat.div_lt_of_lt_mul
    rw [← Nat.pow_add]
    exact lt_two_pow_lostBits n
  have hle := roundHalfEven_le_div_succ n (2 ^ lostBits n)
  calc roundUnits n ≤ 2 ^ 24 * 2 ^ lostBits n := Nat.mul_le_mul_right _ (by omega)
    _ = 2 ^ (lostBits n + 24) := by rw [Nat.pow_add, Nat.mul_comm]

theorem two_pow_le_roundUnits {n : Nat} (h : 0 < lostBits n) :
    2 ^ (lostBits n + 23) ≤ roundUnits n := by
  have hlog : n.log2 = lostBits n + 23 := by unfold lostBits at h ⊢; omega
  have hn : n ≠ 0 := by
    rintro rfl
    simp [lostBits] at h
  have hpow : 2 ^ (lostBits n + 23) ≤ n := hlog ▸ Nat.log2_self_le hn
  have hdiv : 2 ^ 23 ≤ n / 2 ^ lostBits n := by
    rw [Nat.le_div_iff_mul_le (Nat.two_pow_pos _), ← Nat.pow_add, Nat.add_comm]
    exact hpow
  calc 2 ^ (lostBits n + 23) = 2 ^ 23 * 2 ^ lostBits n := by rw [Nat.pow_add, Nat.mul_comm]
    _ ≤ roundUnits n := Nat.mul_le_mul_right _ (hdiv.trans (div_le_roundHalfEven _ _))

/-- Where the two magnitudes lose different numbers of bits, a power of two lies
between their roundings. -/
theorem roundUnits_mono {m n : Nat} (h : m ≤ n) : roundUnits m ≤ roundUnits n := by
  rcases (lostBits_mono h).lt_or_eq with hk | hk
  · calc roundUnits m ≤ 2 ^ (lostBits m + 24) := roundUnits_le_two_pow m
      _ ≤ 2 ^ (lostBits n + 23) := Nat.pow_le_pow_right (by omega) (by omega)
      _ ≤ roundUnits n := two_pow_le_roundUnits (by omega)
  · unfold roundUnits
    rw [hk]
    exact Nat.mul_le_mul_right _ (roundHalfEven_mono _ h)

/-! ## Guard and sticky bits -/

/-- The extended mantissa `em` holds what is left of `n` after `k` bits are dropped. -/
structure Holds (em : ExtendedMantissa) (n k : Nat) : Prop where
  mantissa : em.mantissa = n / 2 ^ k
  roundBit : em.roundBit = true ↔ 2 ^ k ≤ 2 * (n % 2 ^ k)
  stickyBit : em.stickyBit = true ↔ 2 * (n % 2 ^ k) % 2 ^ k ≠ 0

theorem holds_exact (n : Nat) : Holds (.ofMantissaAndAccuracy n .exact) n 0 where
  mantissa := by simp [ExtendedMantissa.ofMantissaAndAccuracy]
  roundBit := by simp [ExtendedMantissa.ofMantissaAndAccuracy, Nat.mod_one]
  stickyBit := by simp [ExtendedMantissa.ofMantissaAndAccuracy, Nat.mod_one]

theorem Holds.shiftRightOne {em : ExtendedMantissa} {n k : Nat} (h : Holds em n k) :
    Holds em.shiftRightOne n (k + 1) := by
  have hpos : 0 < 2 ^ k := Nat.two_pow_pos k
  have hmod : n % 2 ^ (k + 1) = n % 2 ^ k + 2 ^ k * (n / 2 ^ k % 2) := by
    rw [Nat.pow_succ, Nat.mod_mul]
  have hlt : n % 2 ^ k < 2 ^ k := Nat.mod_lt _ hpos
  have hbit : n / 2 ^ k % 2 = 0 ∨ n / 2 ^ k % 2 = 1 := by omega
  refine ⟨?_, ?_, ?_⟩
  · simp only [ExtendedMantissa.shiftRightOne, h.mantissa, Nat.div_div_eq_div_mul, Nat.pow_succ]
  · simp only [ExtendedMantissa.shiftRightOne, h.mantissa, bne_iff_ne, hmod]
    rw [Nat.pow_succ]
    rcases hbit with hb | hb <;> rw [hb] <;> omega
  · have htwice : 2 * (n % 2 ^ (k + 1)) % 2 ^ (k + 1) = 2 * (n % 2 ^ k) := by
      rw [hmod, Nat.mul_add, ← Nat.mul_assoc, Nat.mul_comm 2 (2 ^ k), ← Nat.pow_succ,
        Nat.add_mul_mod_self_left, Nat.mod_eq_of_lt (by rw [Nat.pow_succ]; omega)]
    simp only [ExtendedMantissa.shiftRightOne, Bool.or_eq_true, h.roundBit, h.stickyBit, htwice]
    constructor
    · rintro (hr | hs) h0
      · omega
      · exact hs (by rw [h0, Nat.zero_mod])
    · intro h0
      by_cases hr : 2 ^ k ≤ 2 * (n % 2 ^ k)
      · exact Or.inl hr
      · exact Or.inr (by rwa [Nat.mod_eq_of_lt (by omega)])

theorem Holds.shiftRight {em : ExtendedMantissa} {n : Nat} (h : Holds em n 0) (k : Nat) :
    Holds (em >>> k) n k := by
  change Holds (k.repeat ExtendedMantissa.shiftRightOne em) n k
  induction k with
  | zero => exact h
  | succ k ih => exact ih.shiftRightOne

theorem Holds.roundedMantissa {em : ExtendedMantissa} {n k : Nat} (h : Holds em n k) :
    em.roundedMantissa = roundHalfEven n (2 ^ k) := by
  have hlt : n % 2 ^ k < 2 ^ k := Nat.mod_lt _ (Nat.two_pow_pos k)
  have hround := h.roundBit
  have hsticky := h.stickyBit
  -- the sticky bit tells whether twice the remainder is off the half or off zero
  have hrest : 2 * (n % 2 ^ k) % 2 ^ k =
      if 2 ^ k ≤ 2 * (n % 2 ^ k) then 2 * (n % 2 ^ k) - 2 ^ k else 2 * (n % 2 ^ k) := by
    split_ifs with hr
    · rw [Nat.mod_eq_sub_mod hr, Nat.mod_eq_of_lt (by omega)]
    · exact Nat.mod_eq_of_lt (by omega)
  rw [hrest] at hsticky
  obtain ⟨m, r, s⟩ := em
  have hm : m = n / 2 ^ k := h.mantissa
  subst hm
  cases r <;> cases s <;>
    simp only [Bool.false_eq_true, false_iff, true_iff, not_le] at hround hsticky <;>
    simp only [ExtendedMantissa.roundedMantissa, ExtendedMantissa.accuracy,
      Accuracy.roundToNearestEven, roundHalfEven] <;>
    split_ifs at hsticky ⊢ <;> omega

end ChartParsing.Score
