import ChartParsing.Proofs.Score.Sum

/-!
# The order of scores

A score is present if it is above the score of what is absent; then it is a number.
Scores that are numbers are ordered by their units, sums of present scores are
numbers, and a sum is present only if both of its parts are.
-/

namespace ChartParsing.Score

open Float.Model (Format UnpackedFloat)
open Float.Model.UnpackedFloat

/-- The integer that a score stands for. -/
def units (x : Score) : Int := unitsOf x.toModel.unpack

theorem regular (x : Score) : Regular x.toModel.unpack := unpack_regular _

theorem isNaN_eq (x : Score) : x.isNaN = x.toModel.unpack.isNaN := rfl

theorem lt_iff_compare (x y : Score) :
    x < y ↔ x.toModel.unpack.compare y.toModel.unpack = some .lt := by
  change ((decide (x.toModel < y.toModel)) = true) ↔ _
  rw [decide_eq_true_iff]
  change ((x.toModel.unpack.compare y.toModel.unpack == some .lt) = true) ↔ _
  rw [beq_iff_eq]

theorem le_iff_compare (x y : Score) :
    x ≤ y ↔ (x.toModel.unpack.compare y.toModel.unpack).any (·.isLE) = true := by
  change ((decide (x.toModel ≤ y.toModel)) = true) ↔ _
  rw [decide_eq_true_iff]
  rfl

theorem beq_iff_compare (x y : Score) :
    (x == y) = true ↔ x.toModel.unpack.compare y.toModel.unpack = some .eq := by
  change ((x.toModel.unpack.compare y.toModel.unpack == some .eq) = true) ↔ _
  rw [beq_iff_eq]

theorem compare_of_isNaN {u v : UnpackedFloat} (h : u.isNaN = true ∨ v.isNaN = true) :
    u.compare v = none := by
  rcases h with hu | hv
  · cases u with
    | notANumber => cases v <;> rfl
    | infinity | zero | finite => cases hu
  · cases v with
    | notANumber => cases u <;> rfl
    | infinity | zero | finite => cases hv

theorem lt_iff {x y : Score} :
    x < y ↔ x.isNaN = false ∧ y.isNaN = false ∧ units x < units y := by
  rw [lt_iff_compare, isNaN_eq, isNaN_eq]
  cases hx : x.toModel.unpack.isNaN
  · cases hy : y.toModel.unpack.isNaN
    · rw [compare_eq (regular x) (regular y) hx hy]
      simp [units, compare_lt_iff_lt]
    · rw [compare_of_isNaN (Or.inr hy)]
      simp
  · rw [compare_of_isNaN (Or.inl hx)]
    simp

theorem le_iff {x y : Score} :
    x ≤ y ↔ x.isNaN = false ∧ y.isNaN = false ∧ units x ≤ units y := by
  rw [le_iff_compare, isNaN_eq, isNaN_eq]
  cases hx : x.toModel.unpack.isNaN
  · cases hy : y.toModel.unpack.isNaN
    · rw [compare_eq (regular x) (regular y) hx hy]
      simp [units, Std.isLE_compare]
    · rw [compare_of_isNaN (Or.inr hy)]
      simp
  · rw [compare_of_isNaN (Or.inl hx)]
    simp

theorem beq_iff {x y : Score} :
    (x == y) = true ↔ x.isNaN = false ∧ y.isNaN = false ∧ units x = units y := by
  rw [beq_iff_compare, isNaN_eq, isNaN_eq]
  cases hx : x.toModel.unpack.isNaN
  · cases hy : y.toModel.unpack.isNaN
    · rw [compare_eq (regular x) (regular y) hx hy]
      simp [units]
    · rw [compare_of_isNaN (Or.inr hy)]
      simp
  · rw [compare_of_isNaN (Or.inl hx)]
    simp

theorem unpack_absent : absent.toModel.unpack = .infinity .negative := rfl

@[simp] theorem isNaN_absent : absent.isNaN = false := by
  rw [isNaN_eq, unpack_absent]
  rfl

@[simp] theorem units_absent : units absent = -(infiniteUnits : Int) := by
  rw [units, unpack_absent]
  rfl

/-- The units of a number are below those of infinity. -/
theorem natAbs_unitsOf_lt {u : UnpackedFloat} (h : Regular u) (hu : Finite u) :
    (unitsOf u).natAbs < infiniteUnits := by
  cases u with
  | notANumber => exact hu.elim
  | infinity s => exact hu.elim
  | zero s => exact infiniteUnits_pos
  | finite s m e hm =>
    have := h.1.units_lt_infinite h.2
    cases s <;> dsimp only [unitsOf, Sign.apply] <;> omega

theorem natAbs_units_le (x : Score) : (units x).natAbs ≤ infiniteUnits := by
  have h := regular x
  unfold units
  cases hx : x.toModel.unpack with
  | notANumber => exact Nat.zero_le _
  | zero s => exact Nat.zero_le _
  | infinity s => cases s <;> dsimp only [unitsOf, Sign.apply] <;> omega
  | finite s m e hm =>
    rw [hx] at h
    exact Nat.le_of_lt (natAbs_unitsOf_lt h h.1)

/-- Only one bit pattern has the units of what is absent. -/
theorem eq_absent_of_units {x : Score} (hx : x.isNaN = false)
    (h : units x = -(infiniteUnits : Int)) : x = absent := by
  have hreg := regular x
  have hinf := infiniteUnits_pos
  have hunpack : x.toModel.unpack = .infinity .negative := by
    unfold units at h
    rw [isNaN_eq] at hx
    cases hu : x.toModel.unpack with
    | notANumber => rw [hu] at hx; cases hx
    | zero s => rw [hu] at h; dsimp only [unitsOf] at h; omega
    | infinity s =>
      cases s
      · rfl
      · rw [hu] at h
        dsimp only [unitsOf, Sign.apply] at h
        omega
    | finite s m e hm =>
      rw [hu] at h hreg
      have := natAbs_unitsOf_lt hreg hreg.1
      omega
  have hbits : x.toModel.toBits = absent.toModel.toBits := by
    have h1 := eq_packedInfinity hunpack
    have h2 := eq_packedInfinity unpack_absent
    exact UInt32.toBitVec_inj.1 (h1.trans h2.symm)
  have hmodel : x.toModel = absent.toModel := by
    cases hm : x.toModel
    cases ha : absent.toModel
    rw [hm, ha] at hbits
    dsimp only at hbits
    subst hbits
    rfl
  cases x
  exact congrArg Float32.ofModel hmodel

@[simp] theorem beq_absent {x : Score} : (x == absent) = true ↔ x = absent := by
  rw [beq_iff]
  constructor
  · rintro ⟨hx, -, hunits⟩
    exact eq_absent_of_units hx (by rw [hunits, units_absent])
  · rintro rfl
    exact ⟨isNaN_absent, isNaN_absent, rfl⟩

/-- The scores above that of what is absent are the other numbers. -/
theorem absent_lt_iff {x : Score} : absent < x ↔ x.isNaN = false ∧ x ≠ absent := by
  rw [lt_iff, units_absent]
  constructor
  · rintro ⟨-, hx, hlt⟩
    refine ⟨hx, ?_⟩
    rintro rfl
    rw [units_absent] at hlt
    omega
  · rintro ⟨hx, hne⟩
    refine ⟨isNaN_absent, hx, ?_⟩
    have hle := natAbs_units_le x
    have : units x ≠ -(infiniteUnits : Int) := fun h => hne (eq_absent_of_units hx h)
    omega

theorem lt_irrefl (x : Score) : ¬x < x := by
  rw [lt_iff]
  omega

theorem lt_trans {x y z : Score} (hxy : x < y) (hyz : y < z) : x < z := by
  obtain ⟨hx, hy, hlt⟩ := lt_iff.1 hxy
  obtain ⟨-, hz, hlt'⟩ := lt_iff.1 hyz
  exact lt_iff.2 ⟨hx, hz, by omega⟩

theorem lt_of_lt_of_le {x y z : Score} (hxy : x < y) (hyz : y ≤ z) : x < z := by
  obtain ⟨hx, hy, hlt⟩ := lt_iff.1 hxy
  obtain ⟨-, hz, hle⟩ := le_iff.1 hyz
  exact lt_iff.2 ⟨hx, hz, by omega⟩

theorem lt_of_le_of_lt {x y z : Score} (hxy : x ≤ y) (hyz : y < z) : x < z := by
  obtain ⟨hx, -, hle⟩ := le_iff.1 hxy
  obtain ⟨-, hz, hlt⟩ := lt_iff.1 hyz
  exact lt_iff.2 ⟨hx, hz, by omega⟩

theorem not_lt_of_le {x y : Score} (h : x ≤ y) : ¬y < x := fun hlt =>
  lt_irrefl _ (lt_of_lt_of_le hlt h)

theorem le_trans {x y z : Score} (hxy : x ≤ y) (hyz : y ≤ z) : x ≤ z := by
  obtain ⟨hx, hy, hle⟩ := le_iff.1 hxy
  obtain ⟨-, hz, hle'⟩ := le_iff.1 hyz
  exact le_iff.2 ⟨hx, hz, by omega⟩

theorem le_of_lt {x y : Score} (h : x < y) : x ≤ y := by
  obtain ⟨hx, hy, hlt⟩ := lt_iff.1 h
  exact le_iff.2 ⟨hx, hy, by omega⟩

theorem isNaN_of_present {x : Score} (h : absent < x) : x.isNaN = false := (lt_iff.1 h).2.1

theorem le_self {x : Score} (h : x.isNaN = false) : x ≤ x := le_iff.2 ⟨h, h, Int.le_refl _⟩

theorem le_of_not_lt {x y : Score} (hx : x.isNaN = false) (hy : y.isNaN = false)
    (h : ¬x < y) : y ≤ x := by
  refine le_iff.2 ⟨hy, hx, ?_⟩
  by_contra hlt
  exact h (lt_iff.2 ⟨hx, hy, by omega⟩)

/-- A score above another one is present. -/
theorem present_of_lt {x y : Score} (h : x < y) : absent < y := by
  obtain ⟨-, hy, hlt⟩ := lt_iff.1 h
  have := natAbs_units_le x
  refine lt_iff.2 ⟨isNaN_absent, hy, ?_⟩
  rw [units_absent]
  omega

theorem ne_absent_of_lt {x y : Score} (h : x < y) : y ≠ absent :=
  (absent_lt_iff.1 (present_of_lt h)).2

/-! ## Sums -/

theorem unpack_add (x y : Score) :
    (x + y).toModel.unpack = UnpackedFloat.unpack Format.binary32
      (UnpackedFloat.pack Format.binary32
        (UnpackedFloat.add Format.binary32 x.toModel.unpack y.toModel.unpack)) := rfl

/-- The sum of two finite scores. -/
theorem units_add {x y : Score} (hx : Finite x.toModel.unpack) (hy : Finite y.toModel.unpack) :
    (x + y).isNaN = false ∧ units (x + y) = clamp (roundSigned (units x + units y)) := by
  obtain ⟨hfin, hsum⟩ := add_units hx hy
  rw [isNaN_eq, units, unpack_add]
  obtain ⟨hnan, hunits⟩ := unitsOf_unpack_pack hfin
  exact ⟨hnan, by rw [hunits, hsum]; rfl⟩

/-- A present score is finite or infinite above. -/
theorem finite_or_of_present {x : Score} (h : absent < x) :
    Finite x.toModel.unpack ∨ x.toModel.unpack = .infinity .positive := by
  have hreg := regular x
  obtain ⟨-, hx, hlt⟩ := lt_iff.1 h
  rw [units_absent, units] at hlt
  rw [isNaN_eq] at hx
  cases hu : x.toModel.unpack with
  | notANumber => rw [hu] at hx; cases hx
  | zero s => exact Or.inl trivial
  | finite s m e hm =>
    rw [hu] at hreg
    exact Or.inl hreg.1
  | infinity s =>
    cases s
    · rw [hu] at hlt
      exact absurd hlt (Int.lt_irrefl _)
    · exact Or.inr rfl

theorem units_infinite {x : Score} (h : x.toModel.unpack = .infinity .positive) :
    x.isNaN = false ∧ units x = infiniteUnits := by
  rw [isNaN_eq, units, h]
  exact ⟨rfl, rfl⟩

@[simp] theorem unpack_pack_infinity (s : Sign) :
    UnpackedFloat.unpack Format.binary32 (UnpackedFloat.pack Format.binary32 (.infinity s))
      = .infinity s := by
  cases s <;> rfl

@[simp] theorem unpack_pack_notANumber :
    UnpackedFloat.unpack Format.binary32 (UnpackedFloat.pack Format.binary32 .notANumber)
      = .notANumber := rfl

/-- The sum is infinite above if one part is and the other is present. -/
theorem unpack_add_infinite {x y : Score} (hx : absent < x) (hy : absent < y)
    (h : x.toModel.unpack = .infinity .positive ∨ y.toModel.unpack = .infinity .positive) :
    (x + y).toModel.unpack = .infinity .positive := by
  suffices hadd : UnpackedFloat.add Format.binary32 x.toModel.unpack y.toModel.unpack
      = .infinity .positive by
    rw [unpack_add, hadd, unpack_pack_infinity]
  rcases finite_or_of_present hx with hfx | hix
  · have hiy : y.toModel.unpack = .infinity .positive := by
      rcases h with hix | hiy
      · rw [hix] at hfx
        exact hfx.elim
      · exact hiy
    rw [hiy]
    cases hu : x.toModel.unpack with
    | notANumber => rw [hu] at hfx; exact hfx.elim
    | infinity s => rw [hu] at hfx; exact hfx.elim
    | zero s => rfl
    | finite s m e hm => rfl
  · rw [hix]
    rcases finite_or_of_present hy with hfy | hiy
    · cases hv : y.toModel.unpack with
      | notANumber => rw [hv] at hfy; exact hfy.elim
      | infinity s => rw [hv] at hfy; exact hfy.elim
      | zero s => rfl
      | finite s m e hm => rfl
    · rw [hiy]
      rfl

theorem isNaN_add {x y : Score} (hx : absent < x) (hy : absent < y) :
    (x + y).isNaN = false := by
  rcases finite_or_of_present hx with hfx | hix
  · rcases finite_or_of_present hy with hfy | hiy
    · exact (units_add hfx hfy).1
    · exact (units_infinite (unpack_add_infinite hx hy (Or.inr hiy))).1
  · exact (units_infinite (unpack_add_infinite hx hy (Or.inl hix))).1

theorem finite_of_le {x y : Score} (hx : absent < x) (h : x ≤ y) (hy : Finite y.toModel.unpack) :
    Finite x.toModel.unpack := by
  rcases finite_or_of_present hx with hfx | hix
  · exact hfx
  · obtain ⟨-, -, hle⟩ := le_iff.1 h
    have hlt := natAbs_unitsOf_lt (regular y) hy
    rw [(units_infinite hix).2] at hle
    unfold units at hle
    omega

/-- Addition is monotone on present scores. -/
theorem add_le_add {x x' y y' : Score} (hx : absent < x) (hy : absent < y)
    (hxx : x ≤ x') (hyy : y ≤ y') : x + y ≤ x' + y' := by
  have hx' := lt_of_lt_of_le hx hxx
  have hy' := lt_of_lt_of_le hy hyy
  refine le_iff.2 ⟨isNaN_add hx hy, isNaN_add hx' hy', ?_⟩
  have hbound := natAbs_units_le (x + y)
  rcases finite_or_of_present hx' with hfx | hix
  · rcases finite_or_of_present hy' with hfy | hiy
    · rw [(units_add (finite_of_le hx hxx hfx) (finite_of_le hy hyy hfy)).2,
        (units_add hfx hfy).2]
      obtain ⟨-, -, hux⟩ := le_iff.1 hxx
      obtain ⟨-, -, huy⟩ := le_iff.1 hyy
      exact clamp_mono (roundSigned_mono (by omega))
    · rw [(units_infinite (unpack_add_infinite hx' hy' (Or.inr hiy))).2]
      omega
  · rw [(units_infinite (unpack_add_infinite hx' hy' (Or.inl hix))).2]
    omega

/-- NaN and the infinity below, which stand for no score. -/
def Low (u : UnpackedFloat) : Prop := u = .notANumber ∨ u = .infinity .negative

theorem not_low_iff {x : Score} : absent < x ↔ ¬Low x.toModel.unpack := by
  constructor
  · intro hlt hlow
    rcases finite_or_of_present hlt with h | h
    · rcases hlow with h' | h'
      · rw [h'] at h
        exact h
      · rw [h'] at h
        exact h
    · rcases hlow with h' | h'
      · rw [h'] at h
        cases h
      · rw [h'] at h
        cases h
  · intro hlow
    refine absent_lt_iff.2 ⟨?_, ?_⟩
    · rw [isNaN_eq]
      cases hu : x.toModel.unpack with
      | notANumber => exact absurd (Or.inl hu) hlow
      | infinity s => rfl
      | zero s => rfl
      | finite s m e hm => rfl
    · rintro rfl
      exact hlow (Or.inr unpack_absent)

theorem Low.unpack_pack {u : UnpackedFloat} (h : Low u) :
    Low (UnpackedFloat.unpack Format.binary32 (UnpackedFloat.pack Format.binary32 u)) := by
  rcases h with rfl | rfl
  · exact Or.inl unpack_pack_notANumber
  · exact Or.inr (unpack_pack_infinity _)

theorem Low.add_left {u : UnpackedFloat} (h : Low u) (v : UnpackedFloat) :
    Low (UnpackedFloat.add Format.binary32 u v) := by
  rcases h with rfl | rfl
  · exact Or.inl rfl
  · cases v with
    | notANumber => exact Or.inl rfl
    | infinity s =>
      cases s
      · exact Or.inr rfl
      · exact Or.inl rfl
    | zero s => exact Or.inr rfl
    | finite s m e hm => exact Or.inr rfl

theorem Low.add_right {v : UnpackedFloat} (h : Low v) (u : UnpackedFloat) :
    Low (UnpackedFloat.add Format.binary32 u v) := by
  rcases h with rfl | rfl
  · cases u <;> exact Or.inl rfl
  · cases u with
    | notANumber => exact Or.inl rfl
    | infinity s =>
      cases s
      · exact Or.inr rfl
      · exact Or.inl rfl
    | zero s => exact Or.inr rfl
    | finite s m e hm => exact Or.inr rfl

/-- A sum is present only if both of its parts are. -/
theorem present_of_add {x y : Score} (h : absent < x + y) : absent < x ∧ absent < y := by
  rw [not_low_iff, unpack_add] at h
  constructor
  · rw [not_low_iff]
    intro hlow
    exact h (hlow.add_left _).unpack_pack
  · rw [not_low_iff]
    intro hlow
    exact h (hlow.add_right _).unpack_pack

/-- What is no number leaves no number when something is added to it. -/
theorem isNaN_of_add {x y : Score} (h : (x + y).isNaN = false) : y.isNaN = false := by
  rw [isNaN_eq, unpack_add] at h
  rw [isNaN_eq]
  cases hy : y.toModel.unpack with
  | notANumber =>
    rw [hy] at h
    have hadd (u : UnpackedFloat) : UnpackedFloat.add Format.binary32 u .notANumber =
        .notANumber := by cases u <;> rfl
    rw [hadd, unpack_pack_notANumber] at h
    cases h
  | infinity s => rfl
  | zero s => rfl
  | finite s m e hm => rfl

/-- Rounding leaves the units of a finite score as they are. -/
theorem clamp_roundSigned_units {x : Score} (h : Finite x.toModel.unpack) :
    clamp (roundSigned (units x)) = units x := by
  have hbound := natAbs_units_le x
  unfold units at hbound ⊢
  rw [roundSigned_unitsOf h]
  unfold clamp
  omega

/-- Adding what is not above zero makes no score greater. -/
theorem add_le_right {x y : Score} (hx : x ≤ 0) (h : (x + y).isNaN = false) : x + y ≤ y := by
  have hy := isNaN_of_add h
  refine le_iff.2 ⟨h, hy, ?_⟩
  have hbound := natAbs_units_le (x + y)
  by_cases hpresent : absent < x + y
  · obtain ⟨hx', hy'⟩ := present_of_add hpresent
    rcases finite_or_of_present hy' with hfinite | hinfinite
    · have hzero : Finite (0 : Score).toModel.unpack := trivial
      obtain ⟨-, -, hunits⟩ := le_iff.1 hx
      have hunits' : units x ≤ 0 := hunits
      rw [(units_add (finite_of_le hx' hx hzero) hfinite).2]
      calc clamp (roundSigned (units x + units y))
          ≤ clamp (roundSigned (units y)) := clamp_mono (roundSigned_mono (by omega))
        _ = units y := clamp_roundSigned_units hfinite
    · rw [(units_infinite hinfinite).2]
      omega
  · have habsent : x + y = absent := by
      by_contra hne
      exact hpresent (absent_lt_iff.2 ⟨h, hne⟩)
    have hbound' := natAbs_units_le y
    rw [habsent, units_absent]
    omega

end ChartParsing.Score
