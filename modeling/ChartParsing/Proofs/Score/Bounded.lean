import ChartParsing.Proofs.Score.Exact

/-!
# Bounded scores

Scores that are at most small multiples of `2 ^ 24` have sums that are at most the sums of
the multiples: a sum of the multiples has no more than 24 bits, so rounding does not get past
it. No such sum is infinite above, and so none is a sum of infinities, which is no number.
Adding two probabilities, however often it is done, does not get past `2 ^ 24` at all.
-/

namespace ChartParsing.Score

open Float.Model (Format UnpackedFloat)
open Float.Model.UnpackedFloat Numeral

variable {x y : Score}

theorem isNaN_of_absent_or_finite (h : x = absent ∨ IsFinite x) : x.isNaN = false := by
  rcases h with rfl | hfinite
  · exact isNaN_absent
  · exact isNaN_of_present hfinite.present

theorem absent_or_finite_of_le (hy : y = absent ∨ IsFinite y) (h : x ≤ y) :
    x = absent ∨ IsFinite x := by
  by_cases habsent : x = absent
  · exact Or.inl habsent
  · have hpresent := absent_lt_iff.2 ⟨(le_iff.1 h).1, habsent⟩
    have hne := ne_absent_of_lt (lt_of_lt_of_le hpresent h)
    exact Or.inr (finite_of_le hpresent h (hy.resolve_left hne))

/-- What is absent makes a sum absent. -/
theorem add_eq_absent_or (hx : x = absent ∨ IsFinite x) (hy : y = absent ∨ IsFinite y) :
    x + y = absent ∨ (IsFinite x ∧ IsFinite y) := by
  rcases hx with rfl | hfx
  · rcases hy with rfl | hfy
    · exact Or.inl absent_add_absent
    · exact Or.inl hfy.absent_add
  · rcases hy with rfl | hfy
    · exact Or.inl hfx.add_absent
    · exact Or.inr ⟨hfx, hfy⟩

/-- Adding what is not above zero gives nothing greater. -/
theorem le_zero_add (hx : x ≤ 0) (hy : y = absent ∨ IsFinite y) :
    (x + y = absent ∨ IsFinite (x + y)) ∧ x + y ≤ y := by
  have hx' := absent_or_finite_of_le (Or.inr isFinite_zero) hx
  have hnumber : (x + y).isNaN = false := by
    rcases add_eq_absent_or hx' hy with habsent | ⟨hfx, hfy⟩
    · rw [habsent]
      exact isNaN_absent
    · exact (units_add hfx hfy).1
  have hle := add_le_right hx hnumber
  exact ⟨absent_or_finite_of_le hy hle, hle⟩

/-- A score that is not infinite above, and at most `n` times `2 ^ 24`, which is `2 ^ 173`
units. -/
structure AtMost (x : Score) (n : Nat) : Prop where
  absent_or_finite : x = absent ∨ IsFinite x
  units_le : units x ≤ (n * 2 ^ 173 : Nat)

variable {m n : Nat}

theorem atMost_absent (n : Nat) : absent.AtMost n :=
  ⟨Or.inl rfl, by rw [units_absent]; omega⟩

theorem atMost_of_units (hx : x.isNaN = false) (h : units x ≤ (n * 2 ^ 173 : Nat))
    (hn : n < 2 ^ 24) : x.AtMost n := by
  refine ⟨?_, h⟩
  by_cases habsent : x = absent
  · exact Or.inl habsent
  · rcases finite_or_of_present (absent_lt_iff.2 ⟨hx, habsent⟩) with hfinite | hinfinite
    · exact Or.inr hfinite
    · rw [(units_infinite hinfinite).2, infiniteUnits] at h
      omega

theorem atMost_of_le_zero (h : x ≤ 0) : x.AtMost 0 := by
  obtain ⟨hnumber, -, hle⟩ := le_iff.1 h
  exact atMost_of_units hnumber (by rw [units_zero] at hle; omega) (by decide)

theorem AtMost.mono (h : x.AtMost m) (hmn : m ≤ n) : x.AtMost n :=
  ⟨h.absent_or_finite, h.units_le.trans (by exact_mod_cast Nat.mul_le_mul_right _ hmn)⟩

theorem AtMost.of_le (h : y.AtMost n) (hle : x ≤ y) : x.AtMost n :=
  ⟨absent_or_finite_of_le h.absent_or_finite hle, (le_iff.1 hle).2.2.trans h.units_le⟩

/-! ## Sums -/

/-- What bounds the sum of the units is rounded as the sum is. -/
theorem AtMost.add_of_round (hx : x.AtMost m) (hy : y.AtMost n) {bound : Int} {k : Nat}
    (hbound : units x + units y ≤ bound) (hround : roundSigned bound ≤ (k * 2 ^ 173 : Nat))
    (hk : k < 2 ^ 24) : (x + y).AtMost k := by
  rcases add_eq_absent_or hx.absent_or_finite hy.absent_or_finite with habsent | ⟨hfx, hfy⟩
  · rw [habsent]
    exact atMost_absent k
  · obtain ⟨hnumber, hunits⟩ := units_add hfx hfy
    refine atMost_of_units hnumber ?_ hk
    calc units (x + y) = clamp (roundSigned (units x + units y)) := hunits
      _ ≤ clamp (roundSigned bound) := clamp_mono (roundSigned_mono hbound)
      _ ≤ (k * 2 ^ 173 : Nat) := by unfold clamp; omega

theorem AtMost.add (hx : x.AtMost m) (hy : y.AtMost n) (h : m + n < 2 ^ 24) :
    (x + y).AtMost (m + n) := by
  have hbound : units x + units y ≤ ((m + n) * 2 ^ 173 : Nat) := by
    rw [Nat.add_mul, Int.natCast_add]
    exact Int.add_le_add hx.units_le hy.units_le
  refine hx.add_of_round hy hbound ?_ h
  rw [roundSigned_of_nonneg (Int.natCast_nonneg _), Int.natAbs_natCast, roundUnits_mul_two_pow h]

/-- Halfway to the next number, rounding goes back to `2 ^ 24`. -/
theorem AtMost.add_one (hx : x.AtMost 1) (hy : y ≤ 1) : (x + y).AtMost 1 := by
  obtain ⟨hnumber, -, hle⟩ := le_iff.1 hy
  have hone : units 1 = 2 ^ 149 := by decide +kernel
  have hunits := hx.units_le
  have hy' : y.AtMost 1 := atMost_of_units hnumber (by omega) (by decide)
  have hround : roundSigned (2 ^ 173 + 2 ^ 149) ≤ (1 * 2 ^ 173 : Nat) := by decide +kernel
  exact hx.add_of_round hy' (by omega) hround (by decide)

/-! ## Logarithms -/

theorem min_le_right (x : Score) (hy : y.isNaN = false) : min x y ≤ y := by
  change (if x ≤ y then x else y) ≤ y
  split_ifs with h
  · exact h
  · exact le_self hy

theorem ln_le_zero (x : Score) : ln x ≤ 0 := min_le_right _ rfl

theorem rise_le_one (h : x.isNaN = false) : rise x ≤ 1 := by
  rw [rise, h]
  exact min_le_right _ (by decide +kernel)

/-- A difference of finite scores is a number, as the sum with the negated one is. -/
theorem IsFinite.isNaN_sub (hx : IsFinite x) (hy : IsFinite y) : (x - y).isNaN = false := by
  suffices h : Finite (UnpackedFloat.sub Format.binary32 x.toModel.unpack y.toModel.unpack) from
    (unitsOf_unpack_pack h).1
  unfold IsFinite at hx hy
  generalize x.toModel.unpack = u at hx ⊢
  generalize y.toModel.unpack = v at hy ⊢
  cases u with
  | notANumber => exact hx.elim
  | infinity s => exact hx.elim
  | zero s =>
    cases v with
    | notANumber => exact hy.elim
    | infinity t => exact hy.elim
    | zero t => cases s <;> cases t <;> trivial
    | finite t n e hn => exact hy
  | finite s m d hm =>
    cases v with
    | notANumber => exact hy.elim
    | infinity t => exact hy.elim
    | zero t => exact hx
    | finite t n e hn => exact (normalize_units _ (le_min hx.least hy.least) .positive).1

/-- Probabilities that are added do not get past the bound. -/
theorem AtMost.logSum (hx : x.AtMost 1) (hy : y.AtMost 1) : (Score.logSum x y).AtMost 1 := by
  unfold Score.logSum
  by_cases hx' : x = absent
  · rw [if_pos (beq_absent.2 hx')]
    exact hy
  · rw [if_neg (mt beq_absent.1 hx')]
    by_cases hy' : y = absent
    · rw [if_pos (beq_absent.2 hy')]
      exact hx
    · rw [if_neg (mt beq_absent.1 hy')]
      have hfx := hx.absent_or_finite.resolve_left hx'
      have hfy := hy.absent_or_finite.resolve_left hy'
      dsimp only
      split_ifs
      · exact hx.add_one (rise_le_one (hfy.isNaN_sub hfx))
      · exact hy.add_one (rise_le_one (hfx.isNaN_sub hfy))

theorem AtMost.foldl_logSum {values : List Score} (hx : x.AtMost 1)
    (hvalues : ∀ value ∈ values, value.AtMost 1) :
    (values.foldl Score.logSum x).AtMost 1 := by
  induction values generalizing x with
  | nil => exact hx
  | cons value values ih =>
    exact ih (hx.logSum (hvalues value List.mem_cons_self)) fun other hother =>
      hvalues other (List.mem_cons_of_mem _ hother)

end ChartParsing.Score
