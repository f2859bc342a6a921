import ClassScript.Proofs.Decimal.Rounding

/-!
# The order of doubles

Rounding keeps the order of values (`Decimal.toBits_mono`): a quotient that is rounded at a
higher exponent has at least one binary digit more, and at one exponent the rounded quotients
are in order.

The positive finite doubles are in the order of their bits (`Number.toBits_le_of_le`,
`Number.toBits_lt_of_lt`), since the exponent is packed above the significand.
-/

namespace ClassScript

/-! ## Rounding -/

theorem roundedQuotient_bounds (n d : Nat) :
    n / d ≤ roundedQuotient n d ∧ roundedQuotient n d ≤ n / d + 1 := by
  fun_cases roundedQuotient n d <;> omega

theorem roundedQuotient_le_of_le {n n' : Nat} (d : Nat) (h : n ≤ n') :
    roundedQuotient n d ≤ roundedQuotient n' d := by
  rcases Nat.lt_or_eq_of_le (Nat.div_le_div_right (c := d) h) with hlt | heq
  · have hlow := (roundedQuotient_bounds n d).2
    have hhigh := (roundedQuotient_bounds n' d).1
    omega
  · have hrest : n % d ≤ n' % d := by
      have hsplit := Nat.div_add_mod n d
      have hsplit' := Nat.div_add_mod n' d
      rw [heq] at hsplit
      omega
    unfold roundedQuotient
    dsimp only
    rw [heq]
    split_ifs <;> omega

/-- Fractions are rounded in their order. -/
theorem roundedQuotient_mono {n d n' d' : Nat} (hd : 0 < d) (hd' : 0 < d')
    (h : n * d' ≤ n' * d) : roundedQuotient n d ≤ roundedQuotient n' d' := by
  rw [← roundedQuotient_mul_left n d hd', ← roundedQuotient_mul_left n' d' hd, Nat.mul_comm d' d]
  refine roundedQuotient_le_of_le _ ?_
  rwa [Nat.mul_comm d', Nat.mul_comm d]

namespace Binary64

/-- A quotient is scaled by two powers of two, one of which is one. -/
theorem exists_scaledQuotient_eq (e : Int) : ∃ a b : Nat, 0 < a ∧ 0 < b ∧ (b : ℚ) / a = 2 ^ e ∧
    ∀ n d, scaledQuotient n d e = roundedQuotient (n * a) (d * b) := by
  unfold scaledQuotient
  split
  · rename_i he
    obtain ⟨k, rfl⟩ := Int.eq_ofNat_of_zero_le he
    exact ⟨1, Nat.pow 2 k, Nat.one_pos, Nat.two_pow_pos k, by simp, fun n d => by simp⟩
  · rename_i he
    obtain ⟨k, rfl⟩ := Int.exists_eq_neg_ofNat (le_of_not_ge he)
    exact ⟨Nat.pow 2 k, 1, Nat.two_pow_pos k, Nat.one_pos, by simp, fun n d => by simp⟩

section

variable {n d : Nat} (hd : 0 < d) {e : Int}
include hd

theorem scaledQuotient_mono {n' d' : Nat} (hd' : 0 < d') (h : (n : ℚ) / d ≤ n' / d') :
    scaledQuotient n d e ≤ scaledQuotient n' d' e := by
  obtain ⟨a, b, ha, hb, -, heq⟩ := exists_scaledQuotient_eq e
  have hcross : n * d' ≤ n' * d := by
    rw [div_le_div_iff₀ (by exact_mod_cast hd) (by exact_mod_cast hd')] at h
    exact_mod_cast h
  rw [heq, heq]
  refine roundedQuotient_mono (Nat.mul_pos hd hb) (Nat.mul_pos hd' hb) ?_
  rw [Nat.mul_mul_mul_comm, Nat.mul_mul_mul_comm n']
  exact Nat.mul_le_mul_right _ hcross

/-- A quotient below a multiple of the power of two is not rounded above it. -/
theorem scaledQuotient_le {s : Nat} (h : (n : ℚ) / d ≤ s * 2 ^ e) : scaledQuotient n d e ≤ s := by
  obtain ⟨a, b, ha, hb, hpow, heq⟩ := exists_scaledQuotient_eq e
  have hscaled : n * a ≤ s * (d * b) := by
    rw [← hpow, ← mul_div_assoc, div_le_div_iff₀ (by exact_mod_cast hd) (by exact_mod_cast ha)] at h
    rw [Nat.mul_comm d, ← Nat.mul_assoc]
    exact_mod_cast h
  rw [heq, ← roundedQuotient_mul_right s (Nat.mul_pos hd hb)]
  exact roundedQuotient_le_of_le _ hscaled

/-- A quotient above a multiple of the power of two is not rounded below it. -/
theorem le_scaledQuotient {s : Nat} (h : s * 2 ^ e ≤ (n : ℚ) / d) : s ≤ scaledQuotient n d e := by
  obtain ⟨a, b, ha, hb, hpow, heq⟩ := exists_scaledQuotient_eq e
  have hscaled : s * (d * b) ≤ n * a := by
    rw [← hpow, ← mul_div_assoc, div_le_div_iff₀ (by exact_mod_cast ha) (by exact_mod_cast hd)] at h
    rw [Nat.mul_comm d, ← Nat.mul_assoc]
    exact_mod_cast h
  rw [heq, ← roundedQuotient_mul_right s (Nat.mul_pos hd hb)]
  exact roundedQuotient_le_of_le _ hscaled

end

/-- Fractions are rounded to doubles in their order. -/
theorem nearestBits_mono {n d n' d' : Nat} (hd : 0 < d) (hd' : 0 < d')
    (h : (n : ℚ) / d ≤ n' / d') : nearestBits n d ≤ nearestBits n' d' := by
  rcases Nat.eq_zero_or_pos n with rfl | hn
  · rw [nearestBits_zero]
    exact Nat.zero_le _
  have hq : (0 : ℚ) < (n : ℚ) / d := div_pos (by exact_mod_cast hn) (by exact_mod_cast hd)
  have hq' := hq.trans_le h
  have hn' : 0 < n' := by
    rcases Nat.eq_zero_or_pos n' with rfl | hn'
    · simp at hq'
    · exact hn'
  have he := roundingExponent_eq hd hn
  have he' := roundingExponent_eq hd' hn'
  have hlog := Int.log_mono_right (b := 2) hq h
  rw [nearestBits_of_ne_zero hn.ne', nearestBits_of_ne_zero hn'.ne']
  refine min_le_min_right _ ?_
  rcases eq_or_lt_of_le (show roundingExponent n d ≤ roundingExponent n' d' by omega) with heq | hlt
  · rw [heq]
    exact Nat.add_le_add_left (scaledQuotient_mono hd hd' h) _
  -- At most 53 binary digits are left of the first quotient, and at least 53 of the second one.
  · have hlow : scaledQuotient n d (roundingExponent n d) ≤ 2 ^ 53 := by
      refine scaledQuotient_le hd (le_of_lt ?_)
      calc (n : ℚ) / d < 2 ^ (53 + roundingExponent n d) := by
            rw [← Nat.cast_ofNat, Int.lt_zpow_iff_log_lt Nat.one_lt_two hq]
            omega
        _ = (2 ^ 53 : Nat) * 2 ^ roundingExponent n d := by
            rw [zpow_add₀ two_ne_zero]
            norm_num
    have hhigh : 2 ^ 52 ≤ scaledQuotient n' d' (roundingExponent n' d') := by
      refine le_scaledQuotient hd' ?_
      calc (2 ^ 52 : Nat) * (2 : ℚ) ^ roundingExponent n' d'
        _ = 2 ^ (52 + roundingExponent n' d') := by
            rw [zpow_add₀ two_ne_zero]
            norm_num
        _ ≤ (n' : ℚ) / d' := by
            rw [← Nat.cast_ofNat, Int.zpow_le_iff_le_log Nat.one_lt_two hq']
            omega
    have hleast : leastExponent ≤ roundingExponent n d := he ▸ le_max_right _ _
    rw [Nat.pow_eq]
    omega

end Binary64

/-- Decimals are rounded in the order of their values. -/
theorem Decimal.toBits_mono {d d' : Decimal} (h : d.value ≤ d'.value) : d.toBits ≤ d'.toBits := by
  obtain ⟨n, m, hm, hvalue, hbits⟩ := d.exists_fraction
  obtain ⟨n', m', hm', hvalue', hbits'⟩ := d'.exists_fraction
  rw [hbits, hbits']
  exact Binary64.nearestBits_mono hm hm' (by rwa [hvalue, hvalue'])

/-! ## Comparing -/

namespace Number

open Float.Model (Format UnpackedFloat)
open Float.Model.UnpackedFloat (unpackExponent unpackMantissa unpackSign Sign)

section

variable (b : BitVec Format.binary64.numBits)

theorem toNat_unpackMantissa : (unpackMantissa b).toNat = b.toNat % 2 ^ 52 := by
  simp [unpackMantissa]

theorem toNat_unpackExponent : (unpackExponent b).toNat = b.toNat / 2 ^ 52 % 2 ^ 11 := by
  simp [unpackExponent, Nat.shiftRight_eq_div_pow]

theorem toNat_unpackSign : (unpackSign b).toNat = b.toNat / 2 ^ 63 % 2 := by
  show (b.extractLsb 63 63).toNat = _
  simp [Nat.shiftRight_eq_div_pow]

/-- The significand of a normal number has one digit more than is stored. -/
theorem toNat_one_append_unpackMantissa :
    (1#1 ++ unpackMantissa b).toNat = b.toNat % 2 ^ 52 + 2 ^ 52 := by
  rw [BitVec.toNat_append, ← Nat.shiftLeft_add_eq_or_of_lt (unpackMantissa b).isLt,
    toNat_unpackMantissa, Nat.add_comm]
  rfl

theorem toNat_lt_of_positive (h : Sign.ofBitVec (unpackSign b) = .positive) :
    b.toNat < 2 ^ 63 := by
  have hlt : b.toNat < 2 ^ 64 := b.isLt
  have hbit := toNat_unpackSign b
  by_cases hzero : unpackSign b = 0#1
  · rw [hzero] at hbit
    change 0 = _ at hbit
    omega
  · rw [Sign.ofBitVec, if_neg hzero] at h
    cases h

end

/-- The number is positive and finite. -/
def IsPositive (x : Float) : Prop :=
  ∃ s e h, x.toModel.unpack = .finite .positive s e h

/-- A number that is unpacked as positive and finite is subnormal or normal. -/
theorem unpack_eq_finite {b : BitVec Format.binary64.numBits} {s : Nat} {e : Int} {h : 0 < s}
    (hunpack : UnpackedFloat.unpack .binary64 b = .finite .positive s e h) :
    Sign.ofBitVec (unpackSign b) = .positive ∧
      (unpackExponent b = 0#_ ∧ s = (unpackMantissa b).toNat ∧ e = Binary64.leastExponent ∨
        unpackExponent b ≠ 0#_ ∧ s = (1#1 ++ unpackMantissa b).toNat ∧
          e = Binary64.leastExponent + (unpackExponent b).toNat - 1) := by
  have hbias : (Format.binary64.exponentBias : Int) = 1023 := rfl
  have hbits : (Format.binary64.mantissaBitsWithoutImplicit : Int) = 52 := rfl
  delta UnpackedFloat.unpack at hunpack
  dsimp only at hunpack
  have hspecial : unpackExponent b ≠ -1#_ := by
    intro hspecial
    rw [if_pos hspecial] at hunpack
    by_cases hfraction : unpackMantissa b = 0#_
    · rw [if_pos hfraction] at hunpack
      cases hunpack
    · rw [if_neg hfraction] at hunpack
      cases hunpack
  rw [if_neg hspecial] at hunpack
  by_cases hsubnormal : unpackExponent b = 0#_
  · rw [if_pos hsubnormal] at hunpack
    by_cases hfraction : unpackMantissa b = 0#_
    · rw [dif_pos hfraction] at hunpack
      cases hunpack
    · rw [dif_neg hfraction] at hunpack
      injection hunpack with hpositive hs he
      rw [hsubnormal, hbias, hbits] at he
      exact ⟨hpositive, .inl ⟨hsubnormal, hs.symm, he.symm⟩⟩
  · rw [if_neg hsubnormal] at hunpack
    injection hunpack with hpositive hs he
    rw [hbias, hbits] at he
    refine ⟨hpositive, .inr ⟨hsubnormal, hs.symm, ?_⟩⟩
    rw [Binary64.leastExponent]
    omega

/-- The bits of a positive finite number are its significand and its exponent packed. -/
theorem ofBits_of_unpack {x : Float} {s : Nat} {e : Int} {h : 0 < s}
    (hx : x.toModel.unpack = .finite .positive s e h) : Dyadic.ofBits x.toBits.toNat = ⟨s, e⟩ := by
  let b : BitVec Format.binary64.numBits := x.toModel.toBits.toBitVec
  have hbits : x.toBits.toNat = b.toNat := rfl
  obtain ⟨hpositive, hparts⟩ := unpack_eq_finite (b := b) hx
  -- The sign is the highest bit, so the exponent is all that stands above the fraction.
  have hfield : b.toNat / 2 ^ 52 = (unpackExponent b).toNat := by
    have hexponent := toNat_unpackExponent b
    have hlow := toNat_lt_of_positive b hpositive
    omega
  rw [hbits, Dyadic.ofBits, Nat.pow_eq, hfield]
  rcases hparts with ⟨hsubnormal, hs, he⟩ | ⟨hnormal, hs, he⟩
  · have hzero : (unpackExponent b).toNat = 0 := congrArg BitVec.toNat hsubnormal
    rw [if_pos hzero, hs, he, toNat_unpackMantissa]
  · have hne : (unpackExponent b).toNat ≠ 0 := fun hzero => hnormal (BitVec.eq_of_toNat_eq hzero)
    rw [if_neg hne, hs, he, toNat_one_append_unpackMantissa]

/-- Positive finite numbers are in the order of their bits. -/
theorem compare_toBits {x y : Float} (hx : IsPositive x) (hy : IsPositive y) :
    x.toModel.compare y.toModel = some (compare x.toBits.toNat y.toBits.toNat) := by
  obtain ⟨s, e, h, hx⟩ := hx
  obtain ⟨s', e', h', hy⟩ := hy
  have hpacked := Dyadic.packed_ofBits x.toBits.toNat
  have hpacked' := Dyadic.packed_ofBits y.toBits.toNat
  have hlt := Dyadic.significand_ofBits_lt x.toBits.toNat
  have hlt' := Dyadic.significand_ofBits_lt y.toBits.toNat
  have hnormal := Dyadic.normal_ofBits x.toBits.toNat
  have hnormal' := Dyadic.normal_ofBits y.toBits.toNat
  rw [ofBits_of_unpack hx] at hpacked hlt hnormal
  rw [ofBits_of_unpack hy] at hpacked' hlt' hnormal'
  dsimp only at hpacked hlt hnormal hpacked' hlt' hnormal'
  rw [Nat.pow_eq] at hpacked hpacked'
  rw [Float.Model.compare, hx, hy]
  show some ((compare e e').then (compare s s')) = _
  congr 1
  rcases Int.lt_trichotomy e e' with he | rfl | he
  · rw [compare_lt_iff_lt.mpr he]
    exact (compare_lt_iff_lt.mpr (by omega)).symm
  · rw [compare_eq_iff_eq.mpr rfl, Ordering.then]
    rcases Nat.lt_trichotomy s s' with hs | rfl | hs
    · rw [compare_lt_iff_lt.mpr hs]
      exact (compare_lt_iff_lt.mpr (by omega)).symm
    · rw [compare_eq_iff_eq.mpr rfl]
      exact (compare_eq_iff_eq.mpr (by omega)).symm
    · rw [compare_gt_iff_gt.mpr hs]
      exact (compare_gt_iff_gt.mpr (by omega)).symm
  · rw [compare_gt_iff_gt.mpr he]
    exact (compare_gt_iff_gt.mpr (by omega)).symm

theorem toBits_le_of_le {x y : Float} (hx : IsPositive x) (hy : IsPositive y) (h : x ≤ y) :
    x.toBits.toNat ≤ y.toBits.toNat := by
  have hle : (x.toModel.compare y.toModel).any (·.isLE) = true := of_decide_eq_true h
  rw [compare_toBits hx hy] at hle
  exact Nat.isLE_compare.mp hle

theorem toBits_lt_of_lt {x y : Float} (hx : IsPositive x) (hy : IsPositive y) (h : x < y) :
    x.toBits.toNat < y.toBits.toNat := by
  have hlt : (x.toModel.compare y.toModel == some .lt) = true := of_decide_eq_true h
  rw [compare_toBits hx hy] at hlt
  exact Nat.compare_eq_lt.mp (by simpa using hlt)

/-- What lies between positive finite numbers is positive and finite. -/
theorem IsPositive.between {low x high : Float} (hlow : IsPositive low) (hhigh : IsPositive high)
    (h : low ≤ x) (h' : x < high) : IsPositive x := by
  have hle : (UnpackedFloat.compare low.toModel.unpack x.toModel.unpack).any (·.isLE) = true :=
    of_decide_eq_true h
  have hlt : (UnpackedFloat.compare x.toModel.unpack high.toModel.unpack == some .lt) = true :=
    of_decide_eq_true h'
  obtain ⟨s, e, hs, hlow⟩ := hlow
  obtain ⟨s', e', hs', hhigh⟩ := hhigh
  rw [hlow] at hle
  rw [hhigh] at hlt
  unfold IsPositive
  cases hx : x.toModel.unpack with
  | notANumber =>
    rw [hx] at hle
    cases hle
  | infinity sign =>
    rw [hx] at hle hlt
    cases sign with
    | positive => cases hlt
    | negative => cases hle
  | zero sign =>
    rw [hx] at hle
    cases hle
  | finite sign s e h =>
    cases sign with
    | positive => exact ⟨s, e, h, rfl⟩
    | negative =>
      rw [hx] at hle
      cases hle

end Number

end ClassScript
