import ChartParsing.Proofs.Score.Units

/-!
# Bit patterns of scores

A bit pattern is put together from a sign, an exponent and a mantissa, and is taken
apart into the number it stands for. What is taken apart is regular, and packing a
canonical number keeps it unless its exponent is too large.
-/

namespace ChartParsing.Score

open Float.Model (Format UnpackedFloat totalExponent)
open Float.Model.UnpackedFloat

theorem toNat_append_eq {m n : Nat} (a : BitVec m) (b : BitVec n) :
    (a ++ b).toNat = a.toNat * 2 ^ n + b.toNat := by
  rw [BitVec.toNat_append, Nat.shiftLeft_eq, Nat.mul_comm]
  exact (Nat.two_pow_add_eq_or_of_lt b.isLt _).symm

theorem toNat_packComponents (s : Sign) (e : BitVec 8) (f : BitVec 23) :
    (packComponents Format.binary32 s e f).toNat
      = s.toBitVec.toNat * 2 ^ 31 + e.toNat * 2 ^ 23 + f.toNat := by
  have h : (packComponents Format.binary32 s e f).toNat
      = (s.toBitVec.toNat * 2 ^ 8 + e.toNat) * 2 ^ 23 + f.toNat := by
    unfold packComponents
    rw [toNat_append_eq, toNat_append_eq]
  rw [h, Nat.add_mul, Nat.mul_assoc, ← Nat.pow_add]

/-- A bit pattern is put together from its sign, exponent and mantissa. -/
theorem packComponents_unpack (b : BitVec Format.binary32.numBits) :
    packComponents Format.binary32 (Sign.ofBitVec (unpackSign b)) (unpackExponent b)
      (unpackMantissa b) = b := by
  apply BitVec.eq_of_toNat_eq
  have hb : b.toNat < 2 ^ 32 := b.isLt
  have hs : (unpackSign b).toNat = b.toNat / 2 ^ 31 % 2 := by
    change (b.toNat >>> 31) % 2 = _
    rw [Nat.shiftRight_eq_div_pow]
  have he : (unpackExponent b).toNat = b.toNat / 2 ^ 23 % 2 ^ 8 := by
    change (b.toNat >>> 23) % 2 ^ 8 = _
    rw [Nat.shiftRight_eq_div_pow]
  have hf : (unpackMantissa b).toNat = b.toNat % 2 ^ 23 := rfl
  have hsign : (Sign.ofBitVec (unpackSign b)).toBitVec = unpackSign b := by
    generalize unpackSign b = t
    revert t
    decide
  rw [toNat_packComponents, hsign, hs, he, hf]
  omega

theorem unpackSign_packComponents (s : Sign) (e : BitVec 8) (f : BitVec 23) :
    Sign.ofBitVec (unpackSign (packComponents Format.binary32 s e f)) = s := by
  have h : unpackSign (packComponents Format.binary32 s e f) = s.toBitVec := by
    apply BitVec.eq_of_toNat_eq
    change ((packComponents Format.binary32 s e f).toNat >>> 31) % 2 = _
    have he := e.isLt
    have hf := f.isLt
    have hs := s.toBitVec.isLt
    rw [Nat.shiftRight_eq_div_pow, toNat_packComponents]
    omega
  rw [h]
  cases s <;> rfl

/-- A bit pattern is read by its sign, exponent and mantissa. -/
theorem unpack_of_fields {b : BitVec Format.binary32.numBits} {s : Sign} {e : BitVec 8}
    {f : BitVec 23} (hs : Sign.ofBitVec (unpackSign b) = s) (he : unpackExponent b = e)
    (hf : unpackMantissa b = f) :
    UnpackedFloat.unpack Format.binary32 b =
      if e = -1#8 then if f = 0#23 then .infinity s else .notANumber
      else if e = 0#8 then
        if h : f = 0#23 then .zero s
        else .finite s f.toNat ((e.toNat : Int) - 150 + 1)
          (Nat.pos_of_ne_zero fun h0 => h (BitVec.eq_of_toNat_eq h0))
      else .finite s (1#1 ++ f).toNat ((e.toNat : Int) - 150)
        (by rw [toNat_append_eq]; exact Nat.add_pos_left (by decide) _) := by
  subst hs he hf
  rfl

/-- What a bit pattern can stand for. -/
theorem unpack_cases (b : BitVec Format.binary32.numBits) :
    let s := Sign.ofBitVec (unpackSign b)
    let e : BitVec 8 := unpackExponent b
    let f : BitVec 23 := unpackMantissa b
    let u := UnpackedFloat.unpack Format.binary32 b
    (e = -1#8 ∧ f = 0#23 ∧ u = .infinity s) ∨ u = .notANumber ∨ u = .zero s ∨
      (e = 0#8 ∧ ∃ h, u = .finite s f.toNat ((e.toNat : Int) - 150 + 1) h) ∨
      (e ≠ -1#8 ∧ e ≠ 0#8 ∧ ∃ h, u = .finite s (1#1 ++ f).toNat ((e.toNat : Int) - 150) h) := by
  intro s e f u
  have hu : u = _ := unpack_of_fields (b := b) (s := s) (e := e) (f := f) rfl rfl rfl
  by_cases hmax : e = -1#8
  · rw [if_pos hmax] at hu
    by_cases hf : f = 0#23
    · exact Or.inl ⟨hmax, hf, hu.trans (if_pos hf)⟩
    · exact Or.inr (Or.inl (hu.trans (if_neg hf)))
  · rw [if_neg hmax] at hu
    by_cases hmin : e = 0#8
    · rw [if_pos hmin] at hu
      by_cases hf : f = 0#23
      · exact Or.inr (Or.inr (Or.inl (hu.trans (dif_pos hf))))
      · exact Or.inr (Or.inr (Or.inr (Or.inl ⟨hmin, _, hu.trans (dif_neg hf)⟩)))
    · exact Or.inr (Or.inr (Or.inr (Or.inr ⟨hmax, hmin, _, hu.trans (if_neg hmin)⟩)))

/-- Each infinity has one bit pattern. -/
theorem eq_packedInfinity {b : BitVec Format.binary32.numBits} {s : Sign}
    (h : UnpackedFloat.unpack Format.binary32 b = .infinity s) :
    b = packedInfinity Format.binary32 s := by
  rcases unpack_cases b with ⟨he, hf, hu⟩ | hu | hu | ⟨-, _, hu⟩ | ⟨-, -, _, hu⟩
  · injection h.symm.trans hu with hs
    rw [← packComponents_unpack b, hs, he, hf]
    rfl
  all_goals cases h.symm.trans hu

/-- Every bit pattern stands for a number that single precision has. -/
theorem unpack_regular (b : BitVec Format.binary32.numBits) :
    Regular (UnpackedFloat.unpack Format.binary32 b) := by
  have hlt : (unpackMantissa b).toNat < 2 ^ 23 := (unpackMantissa b).isLt
  rcases unpack_cases b with ⟨-, -, hu⟩ | hu | hu | ⟨he, hpos, hu⟩ | ⟨hmax, hmin, hpos, hu⟩
  · rw [hu]
    trivial
  · rw [hu]
    trivial
  · rw [hu]
    trivial
  · have h0 : (unpackExponent b).toNat = 0 := by
      rw [he]
      rfl
    rw [hu]
    exact ⟨⟨by omega, by omega, by omega⟩, by omega⟩
  · have he : (unpackExponent b).toNat < 2 ^ 8 := (unpackExponent b).isLt
    have hm : (1#1 ++ unpackMantissa b).toNat = 1 * 2 ^ 23 + (unpackMantissa b).toNat :=
      toNat_append_eq _ _
    have h0 : (unpackExponent b).toNat ≠ 0 := fun h => hmin (BitVec.eq_of_toNat_eq h)
    have h255 : (unpackExponent b).toNat ≠ 255 := fun h => hmax (BitVec.eq_of_toNat_eq h)
    rw [hu]
    exact ⟨⟨by omega, by omega, by omega⟩, by omega⟩

/-- What does not fit the exponent becomes infinite; all else is kept. -/
theorem unpack_pack_finite (s : Sign) {m : Nat} {e : Int} (hm : 0 < m) (h : Canonical m e) :
    UnpackedFloat.unpack Format.binary32 (UnpackedFloat.pack Format.binary32 (.finite s m e hm))
      = if e ≤ 104 then .finite s m e hm else .infinity s := by
  have hlo := h.least
  have hlt := h.lt
  have hexp : (e + (Format.binary32.exponentBias : Nat)
      + (Format.binary32.mantissaBitsWithoutImplicit : Nat)).toNat = (e + 150).toNat := by
    change (e + (127 : Nat) + (23 : Nat)).toNat = _
    congr 1
    omega
  have hpack : UnpackedFloat.pack Format.binary32 (.finite s m e hm) =
      if 2 ^ 8 ≤ (e + 150).toNat + 1 then packComponents Format.binary32 s (-1#8) 0#23
      else if m.log2 + 1 = 24 then
        packComponents Format.binary32 s (BitVec.ofNat 8 (e + 150).toNat) (BitVec.ofNat 23 m)
      else packComponents Format.binary32 s 0#8 (BitVec.ofNat 23 m) := by
    unfold UnpackedFloat.pack
    dsimp only
    rw [hexp]
    rfl
  have hunpack (field : BitVec 8) (fraction : BitVec 23) := unpack_of_fields
    (unpackSign_packComponents s field fraction) unpackExponent_packComponents
    unpackMantissa_packComponents
  rw [hpack]
  by_cases he : e ≤ 104
  · rw [if_pos he, if_neg (by omega)]
    by_cases hfull : 2 ^ 23 ≤ m
    · -- the exponent field is not zero, and the leading bit is left out
      have hlog : m.log2 = 23 := (Nat.log2_eq_iff (by omega)).2 ⟨hfull, hlt⟩
      have hev : (BitVec.ofNat 8 (e + 150).toNat).toNat = (e + 150).toNat :=
        Nat.mod_eq_of_lt (by omega)
      have hmv : (1#1 ++ BitVec.ofNat 23 m).toNat = m := by
        rw [toNat_append_eq]
        change 1 * 2 ^ 23 + m % 2 ^ 23 = m
        omega
      have hne1 : BitVec.ofNat 8 (e + 150).toNat ≠ -1#8 := by
        intro h0
        rw [h0] at hev
        exact absurd hev (by rw [show (-1#8).toNat = 255 from rfl]; omega)
      have hne0 : BitVec.ofNat 8 (e + 150).toNat ≠ 0#8 := by
        intro h0
        rw [h0] at hev
        exact absurd hev (by rw [show (0#8).toNat = 0 from rfl]; omega)
      rw [if_pos (by rw [hlog]), hunpack, if_neg hne1, if_neg hne0]
      exact finite_congr s _ _ hmv (by rw [hev]; omega)
    · have hmin : e = -149 := by
        by_contra hne
        exact hfull (h.full (by omega))
      have hlog : m.log2 < 23 := (Nat.log2_lt (by omega)).2 (by omega)
      have hmv : (BitVec.ofNat 23 m).toNat = m := Nat.mod_eq_of_lt (by omega)
      have hne : BitVec.ofNat 23 m ≠ 0#23 := by
        intro h0
        rw [h0] at hmv
        exact absurd hmv (by rw [show (0#23).toNat = 0 from rfl]; omega)
      rw [if_neg (by omega), hunpack, if_neg (by decide), if_pos rfl, dif_neg hne]
      exact finite_congr s _ _ hmv hmin.symm
  · rw [if_neg he, if_pos (by omega), hunpack, if_pos rfl, if_pos rfl]

end ChartParsing.Score
