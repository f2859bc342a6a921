import ClassScript.Decimal.Shortest
import Mathlib.Algebra.Order.Field.Power
import Mathlib.Data.Int.Log
import Mathlib.Data.Rat.Floor
import Mathlib.Tactic.FieldSimp
import Mathlib.Tactic.GCongr
import Mathlib.Tactic.Positivity
import Mathlib.Tactic.Ring

/-!
# Rounding to doubles

What a decimal is rounded to depends on its value and not on how it is written
(`Decimal.toBits_congr`): the exponent at which a quotient is rounded is read off the binary
logarithm of the quotient (`Binary64.roundingExponent_eq`), and the rounded quotient is the
same for all fractions of one value (`roundedQuotient_congr`).

A double is rounded to itself (`Binary64.nearestBits_of_dyadic`).  So the shortest decimal of a
double, which is found by trying, reads back in any case (`Decimal.toBits_shortest`).
-/

namespace ClassScript

/-! ## Quotients -/

theorem roundedQuotient_mul_left (n d : Nat) {k : Nat} (hk : 0 < k) :
    roundedQuotient (k * n) (k * d) = roundedQuotient n d := by
  have hlt (a b : Nat) : 2 * (k * a) < k * b ↔ 2 * a < b := by
    rw [Nat.mul_left_comm]
    exact Nat.mul_lt_mul_left hk
  have hgt (a b : Nat) : k * b < 2 * (k * a) ↔ b < 2 * a := by
    rw [Nat.mul_left_comm 2]
    exact Nat.mul_lt_mul_left hk
  unfold roundedQuotient
  simp only [Nat.mul_div_mul_left _ _ hk, Nat.mul_mod_mul_left, hlt, hgt]

/-- Fractions of the same value are rounded alike. -/
theorem roundedQuotient_congr {n d n' d' : Nat} (hd : 0 < d) (hd' : 0 < d')
    (h : n * d' = n' * d) : roundedQuotient n d = roundedQuotient n' d' := by
  rw [← roundedQuotient_mul_left n d hd', ← roundedQuotient_mul_left n' d' hd, Nat.mul_comm d' n,
    h, Nat.mul_comm n' d, Nat.mul_comm d' d]

/-- A quotient that is a natural number is rounded to itself. -/
theorem roundedQuotient_mul_right (n : Nat) {d : Nat} (hd : 0 < d) :
    roundedQuotient (n * d) d = n := by
  unfold roundedQuotient
  simp [Nat.mul_div_cancel _ hd, hd]

namespace Binary64

theorem log2_bracket {n : Nat} (hn : 0 < n) :
    (2 : ℚ) ^ (n.log2 : Int) ≤ n ∧ (n : ℚ) < 2 ^ (n.log2 + 1 : Int) := by
  have hlow := Nat.log2_self_le hn.ne'
  have hhigh := Nat.lt_log2_self (n := n)
  constructor
  · rw [zpow_natCast]
    exact_mod_cast hlow
  · exact_mod_cast hhigh

section

variable {n d : Nat} (hd : 0 < d)
include hd

theorem ratioLtPow_iff (k : Int) : ratioLtPow n d k = true ↔ (n : ℚ) / d < 2 ^ k := by
  have hd' : (0 : ℚ) < d := by exact_mod_cast hd
  unfold ratioLtPow
  rw [div_lt_iff₀ hd']
  split
  · rename_i hk
    obtain ⟨m, rfl⟩ := Int.eq_ofNat_of_zero_le hk
    simp only [decide_eq_true_eq, Int.toNat_natCast, zpow_natCast]
    rw [mul_comm d]
    exact_mod_cast Iff.rfl
  · rename_i hk
    obtain ⟨m, rfl⟩ := Int.exists_eq_neg_ofNat (le_of_not_ge hk)
    simp only [decide_eq_true_eq, neg_neg, Int.toNat_natCast, zpow_neg, zpow_natCast]
    rw [inv_mul_eq_div, lt_div_iff₀ (by positivity)]
    exact_mod_cast Iff.rfl

/-- The exponent at which a quotient is rounded leaves 53 binary digits. -/
theorem roundingExponent_eq (hn : 0 < n) :
    roundingExponent n d = max (Int.log 2 ((n : ℚ) / d) - 52) leastExponent := by
  have hn' : (0 : ℚ) < n := by exact_mod_cast hn
  have hd' : (0 : ℚ) < d := by exact_mod_cast hd
  have hq : (0 : ℚ) < (n : ℚ) / d := div_pos hn' hd'
  obtain ⟨hnlow, hnhigh⟩ := log2_bracket hn
  obtain ⟨hdlow, hdhigh⟩ := log2_bracket hd
  -- The logarithms of the two numbers give that of the quotient up to one.
  have hlow : (n.log2 : Int) - d.log2 - 1 ≤ Int.log 2 ((n : ℚ) / d) := by
    rw [← Int.zpow_le_iff_le_log Nat.one_lt_two hq, Nat.cast_ofNat, le_div_iff₀ hd']
    calc (2 : ℚ) ^ ((n.log2 : Int) - d.log2 - 1) * d
        ≤ 2 ^ ((n.log2 : Int) - d.log2 - 1) * 2 ^ (d.log2 + 1 : Int) := by gcongr
      _ = 2 ^ (n.log2 : Int) := by rw [← zpow_add₀ two_ne_zero]; congr 1; omega
      _ ≤ n := hnlow
  have hhigh : Int.log 2 ((n : ℚ) / d) < (n.log2 : Int) - d.log2 + 1 := by
    rw [← Int.lt_zpow_iff_log_lt Nat.one_lt_two hq, Nat.cast_ofNat, div_lt_iff₀ hd']
    calc (n : ℚ) < 2 ^ (n.log2 + 1 : Int) := hnhigh
      _ = 2 ^ ((n.log2 : Int) - d.log2 + 1) * 2 ^ (d.log2 : Int) := by
        rw [← zpow_add₀ two_ne_zero]; congr 1; omega
      _ ≤ 2 ^ ((n.log2 : Int) - d.log2 + 1) * d := by gcongr
  have hiff : ratioLtPow n d ((n.log2 : Int) - d.log2) = true ↔
      Int.log 2 ((n : ℚ) / d) < (n.log2 : Int) - d.log2 := by
    rw [ratioLtPow_iff hd, ← Int.lt_zpow_iff_log_lt Nat.one_lt_two hq, Nat.cast_ofNat]
  unfold roundingExponent
  dsimp only
  rw [show (n.log2 : Int) - d.log2 - 52 + 52 = n.log2 - d.log2 by omega]
  congr 1
  split
  · rename_i hlt
    have hlog := hiff.mp hlt
    omega
  · rename_i hlt
    have hlog := mt hiff.mpr hlt
    omega

end

theorem scaledQuotient_congr {n d n' d' : Nat} (hd : 0 < d) (hd' : 0 < d')
    (h : n * d' = n' * d) (e : Int) : scaledQuotient n d e = scaledQuotient n' d' e := by
  unfold scaledQuotient
  split
  · refine roundedQuotient_congr (Nat.mul_pos hd (Nat.two_pow_pos _))
      (Nat.mul_pos hd' (Nat.two_pow_pos _)) ?_
    rw [← Nat.mul_assoc, h, Nat.mul_assoc]
  · refine roundedQuotient_congr hd hd' ?_
    rw [Nat.mul_right_comm, h, Nat.mul_right_comm]

theorem nearestBits_zero (d : Nat) : nearestBits 0 d = 0 :=
  if_pos rfl

theorem nearestBits_of_ne_zero {n d : Nat} (hn : n ≠ 0) : nearestBits n d =
    min ((roundingExponent n d - leastExponent).toNat * Nat.pow 2 52 +
      scaledQuotient n d (roundingExponent n d)) infinityBits :=
  if_neg hn

/-- Fractions of the same value have the same nearest double. -/
theorem nearestBits_congr {n d n' d' : Nat} (hd : 0 < d) (hd' : 0 < d')
    (h : (n : ℚ) / d = n' / d') : nearestBits n d = nearestBits n' d' := by
  have hne : (d : ℚ) ≠ 0 := by exact_mod_cast hd.ne'
  have hne' : (d' : ℚ) ≠ 0 := by exact_mod_cast hd'.ne'
  have hcross : n * d' = n' * d := by
    rw [div_eq_div_iff hne hne'] at h
    exact_mod_cast h
  by_cases hn : n = 0
  · have hn' : n' = 0 := by
      rw [hn, Nat.zero_mul] at hcross
      exact (Nat.mul_eq_zero.mp hcross.symm).resolve_right hd.ne'
    rw [hn, hn', nearestBits_zero, nearestBits_zero]
  · have hn' : n' ≠ 0 := by
      rintro rfl
      rw [Nat.zero_mul] at hcross
      exact hn ((Nat.mul_eq_zero.mp hcross).resolve_right hd'.ne')
    have he : roundingExponent n d = roundingExponent n' d' := by
      rw [roundingExponent_eq hd (Nat.pos_of_ne_zero hn),
        roundingExponent_eq hd' (Nat.pos_of_ne_zero hn'), h]
    have hquotient := scaledQuotient_congr hd hd' hcross (roundingExponent n' d')
    rw [nearestBits_of_ne_zero hn, nearestBits_of_ne_zero hn', he, hquotient]

end Binary64

/-! ## Decimals -/

namespace Decimal

/-- The number that a decimal stands for. -/
def value (d : Decimal) : ℚ := d.coefficient * 10 ^ d.exponent

theorem toBits_zero (e : Int) : toBits ⟨0, e⟩ = 0 := by
  unfold toBits
  split
  · rw [Nat.zero_mul, Binary64.nearestBits_zero]
  · exact Binary64.nearestBits_zero _

/-- A decimal is rounded as a fraction of its value. -/
theorem exists_fraction (d : Decimal) : ∃ n m : Nat, 0 < m ∧ (n : ℚ) / m = d.value ∧
    d.toBits = Binary64.nearestBits n m := by
  unfold toBits value
  split
  · rename_i he
    obtain ⟨k, hk⟩ := Int.eq_ofNat_of_zero_le he
    refine ⟨_, 1, Nat.one_pos, ?_, rfl⟩
    rw [hk, Int.toNat_natCast, zpow_natCast]
    simp
  · rename_i he
    obtain ⟨k, hk⟩ := Int.exists_eq_neg_ofNat (le_of_not_ge he)
    refine ⟨d.coefficient, _, Nat.pow_pos (by decide), ?_, rfl⟩
    rw [hk, neg_neg, Int.toNat_natCast, zpow_neg, zpow_natCast, div_eq_mul_inv]
    simp

/-- Decimals of the same value are rounded alike. -/
theorem toBits_congr {d d' : Decimal} (h : d.value = d'.value) : d.toBits = d'.toBits := by
  obtain ⟨n, m, hm, hvalue, hbits⟩ := d.exists_fraction
  obtain ⟨n', m', hm', hvalue', hbits'⟩ := d'.exists_fraction
  rw [hbits, hbits']
  exact Binary64.nearestBits_congr hm hm' (by rw [hvalue, hvalue', h])

end Decimal

/-! ## Doubles -/

namespace Dyadic

/-- The number that a double stands for. -/
def value (x : Dyadic) : ℚ := x.significand * 2 ^ x.exponent

theorem value_exactDecimal (x : Dyadic) : x.exactDecimal.value = x.value := by
  unfold exactDecimal Decimal.value value numerator
  split
  · rename_i he
    obtain ⟨k, hk⟩ := Int.eq_ofNat_of_zero_le he
    rw [hk, Int.toNat_natCast, zpow_natCast]
    simp
  · rename_i he
    obtain ⟨k, hk⟩ := Int.exists_eq_neg_ofNat (le_of_not_ge he)
    rw [hk, neg_neg, Int.toNat_natCast, zpow_neg, zpow_neg, zpow_natCast, zpow_natCast]
    have hten : (10 : ℚ) ^ k = 2 ^ k * 5 ^ k := by rw [← mul_pow]; norm_num
    push_cast [Nat.pow_eq]
    rw [hten]
    field_simp

/-- The bits of a double are its significand and its exponent packed. -/
theorem packed_ofBits (bits : Nat) :
    ((ofBits bits).exponent - Binary64.leastExponent).toNat * Nat.pow 2 52 +
      (ofBits bits).significand = bits := by
  have hsplit := Nat.div_add_mod bits (Nat.pow 2 52)
  rw [Nat.mul_comm] at hsplit
  unfold ofBits
  dsimp only
  split
  · rename_i hfield
    simpa [hfield] using hsplit
  · rename_i hfield
    obtain ⟨k, hk⟩ := Nat.exists_eq_succ_of_ne_zero hfield
    rw [hk] at hsplit ⊢
    have hexponent : (Binary64.leastExponent + (k.succ : Int) - 1 - Binary64.leastExponent).toNat =
        k := by omega
    rw [hexponent]
    rw [Nat.succ_mul, Nat.add_assoc, Nat.add_comm (Nat.pow 2 52)] at hsplit
    exact hsplit

theorem significand_ofBits_lt (bits : Nat) : (ofBits bits).significand < 2 ^ 53 := by
  have hfraction : bits % Nat.pow 2 52 < 2 ^ 52 := Nat.mod_lt _ (by decide)
  unfold ofBits
  dsimp only
  split
  · dsimp only
    omega
  · dsimp only
    rw [Nat.pow_eq] at hfraction ⊢
    omega

/-- The leading digit of a significand is one, except at the least exponent. -/
theorem normal_ofBits (bits : Nat) :
    (ofBits bits).exponent = Binary64.leastExponent ∨
      Binary64.leastExponent ≤ (ofBits bits).exponent ∧ 2 ^ 52 ≤ (ofBits bits).significand := by
  unfold ofBits
  dsimp only
  split
  · exact .inl rfl
  · rename_i hfield
    refine .inr ⟨?_, Nat.le_add_left _ _⟩
    have hone : 1 ≤ bits / Nat.pow 2 52 := Nat.one_le_iff_ne_zero.mpr hfield
    dsimp only
    omega

end Dyadic

namespace Binary64

/-- A quotient that is a multiple of the power of two is rounded to the multiple. -/
theorem scaledQuotient_of_eq {n d : Nat} (hd : 0 < d) {s : Nat} {e : Int}
    (h : (n : ℚ) / d = s * 2 ^ e) : scaledQuotient n d e = s := by
  have hne : (d : ℚ) ≠ 0 := by exact_mod_cast hd.ne'
  rw [div_eq_iff hne] at h
  unfold scaledQuotient
  split
  · rename_i he
    obtain ⟨k, rfl⟩ := Int.eq_ofNat_of_zero_le he
    have hn : n = s * (d * Nat.pow 2 k) := by
      rw [zpow_natCast] at h
      rw [Nat.mul_comm d, ← Nat.mul_assoc]
      exact_mod_cast h
    rw [Int.toNat_natCast, hn]
    exact roundedQuotient_mul_right s (Nat.mul_pos hd (Nat.two_pow_pos k))
  · rename_i he
    obtain ⟨k, rfl⟩ := Int.exists_eq_neg_ofNat (le_of_not_ge he)
    have hn : n * Nat.pow 2 k = s * d := by
      rw [zpow_neg, zpow_natCast] at h
      have hscaled : (n : ℚ) * 2 ^ k = s * d := by
        rw [h]
        field_simp
      exact_mod_cast hscaled
    rw [neg_neg, Int.toNat_natCast, hn]
    exact roundedQuotient_mul_right s hd

/-- A double is rounded at its own exponent. -/
theorem roundingExponent_of_eq {n d : Nat} (hd : 0 < d) {s : Nat} (hs : 0 < s) (hlt : s < 2 ^ 53)
    {e : Int} (hnormal : e = leastExponent ∨ leastExponent ≤ e ∧ 2 ^ 52 ≤ s)
    (h : (n : ℚ) / d = s * 2 ^ e) : roundingExponent n d = e := by
  have hs' : (0 : ℚ) < s := by exact_mod_cast hs
  have hq : (0 : ℚ) < (n : ℚ) / d := by rw [h]; positivity
  have hn : 0 < n := by
    rcases Nat.eq_zero_or_pos n with rfl | hn
    · simp at hq
    · exact hn
  have hhigh : Int.log 2 ((n : ℚ) / d) < 53 + e := by
    rw [← Int.lt_zpow_iff_log_lt Nat.one_lt_two hq, Nat.cast_ofNat, h, zpow_add₀ two_ne_zero]
    gcongr
    exact_mod_cast hlt
  rw [roundingExponent_eq hd hn]
  rcases hnormal with rfl | ⟨hleast, hle⟩
  · omega
  · have hlow : 52 + e ≤ Int.log 2 ((n : ℚ) / d) := by
      rw [← Int.zpow_le_iff_le_log Nat.one_lt_two hq, Nat.cast_ofNat, h, zpow_add₀ two_ne_zero]
      gcongr
      exact_mod_cast hle
    omega

/-- A double is rounded to itself. -/
theorem nearestBits_of_dyadic {bits : Nat} (hbits : bits < infinityBits) {n d : Nat} (hd : 0 < d)
    (h : (n : ℚ) / d = (Dyadic.ofBits bits).value) : nearestBits n d = bits := by
  have hpacked := Dyadic.packed_ofBits bits
  have hnormal := Dyadic.normal_ofBits bits
  -- Zero has no logarithm, so it is rounded on its own.
  rcases Nat.eq_zero_or_pos (Dyadic.ofBits bits).significand with hzero | hpos
  · have hexponent : (Dyadic.ofBits bits).exponent = leastExponent := by
      refine hnormal.resolve_right fun hn => ?_
      rw [hzero] at hn
      exact absurd hn.2 (by decide)
    have hn : n = 0 := by
      have hne : (d : ℚ) ≠ 0 := by exact_mod_cast hd.ne'
      rw [Dyadic.value, hzero, Nat.cast_zero, zero_mul, div_eq_zero_iff] at h
      exact_mod_cast h.resolve_right hne
    rw [hexponent, hzero, sub_self, Int.toNat_zero, Nat.zero_mul] at hpacked
    rw [hn, nearestBits_zero, ← hpacked]
  · have hn : n ≠ 0 := by
      rintro rfl
      have hs : ((Dyadic.ofBits bits).significand : ℚ) ≠ 0 := by exact_mod_cast hpos.ne'
      rw [Nat.cast_zero, zero_div, Dyadic.value, zero_eq_mul] at h
      exact h.elim hs (by positivity)
    rw [nearestBits_of_ne_zero hn, roundingExponent_of_eq hd hpos
      (Dyadic.significand_ofBits_lt bits) hnormal h, scaledQuotient_of_eq hd h, hpacked]
    exact Nat.min_eq_left hbits.le

end Binary64

namespace Decimal

/-- The shortest decimal of a double reads back as the double. -/
theorem toBits_shortest {bits : Nat} (hbits : bits < Binary64.infinityBits) :
    (shortest bits).toBits = bits := by
  unfold shortest
  dsimp only
  generalize hfound : List.findSome? _ _ = found
  cases found with
  | none =>
    obtain ⟨n, m, hm, hvalue, hround⟩ := (Dyadic.ofBits bits).exactDecimal.exists_fraction
    rw [Option.getD_none, hround]
    exact Binary64.nearestBits_of_dyadic hbits hm (by rw [hvalue, Dyadic.value_exactDecimal])
  | some d =>
    obtain ⟨k, -, hk⟩ := List.exists_of_findSome?_eq_some hfound
    simpa using List.find?_some hk

end Decimal

end ClassScript
