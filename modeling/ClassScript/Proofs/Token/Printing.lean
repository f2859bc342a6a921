import ClassScript.Proofs.Decimal.Order
import ClassScript.Proofs.Text.Numbers
import ClassScript.Proofs.Token.Places
import ClassScript.Proofs.Token.Writing
import ClassScript.Value.Basic

/-!
# Printed numbers

A *plain* number is zero or lies between `1e-4` and `1e16`, where the digits of a number are
written positionally.  The scan of its printed text is one number token that carries the number
again (`Scan.ofSource_text`).

Whether digits are written positionally is decided by the point of the shortest decimal and not
by the number, and the decimal is a little more or less than the number.  As rounding keeps the
order of values, a decimal that is rounded to a plain number lies within the same bounds
(`Number.shortest_bounds`), and so does its point.
-/

namespace ClassScript

/-! ## The point of a decimal -/

namespace Decimal

/-- The point of a decimal is the power of ten just above it. -/
theorem value_bounds {d : Decimal} (hd : d.coefficient ≠ 0) :
    (10 : ℚ) ^ (d.significantDigits.2 - 1) ≤ d.value ∧ d.value < 10 ^ d.significantDigits.2 := by
  have hpoint : d.significantDigits.2 = (Nat.toDigits 10 d.coefficient).length + d.exponent := rfl
  have hlength := Nat.length_toDigits_pos (b := 10) (n := d.coefficient)
  obtain ⟨k, hk⟩ := Nat.exists_eq_succ_of_ne_zero hlength.ne'
  have hhigh : d.coefficient < 10 ^ (k + 1) :=
    (Nat.length_toDigits_le_iff (by decide) (Nat.succ_pos k)).mp hk.le
  have hlow : 10 ^ k ≤ d.coefficient := by
    rcases Nat.eq_zero_or_pos k with rfl | hpos
    · exact Nat.one_le_iff_ne_zero.mpr hd
    · refine Nat.le_of_not_lt fun hlt => ?_
      have hle := (Nat.length_toDigits_le_iff (b := 10) (by decide) hpos).mpr hlt
      omega
  rw [hpoint, hk, value]
  constructor
  · calc (10 : ℚ) ^ ((k.succ : Int) + d.exponent - 1) = 10 ^ k * 10 ^ d.exponent := by
          rw [← zpow_natCast, ← zpow_add₀ (by norm_num), Nat.cast_succ, add_right_comm,
            add_sub_cancel_right]
      _ ≤ d.coefficient * 10 ^ d.exponent := by
          gcongr
          exact_mod_cast hlow
  · calc d.coefficient * (10 : ℚ) ^ d.exponent < 10 ^ (k + 1) * 10 ^ d.exponent := by
          gcongr
          exact_mod_cast hhigh
      _ = (10 : ℚ) ^ ((k.succ : Int) + d.exponent) := by
          rw [← zpow_natCast, ← zpow_add₀ (by norm_num)]

/-- Between `1e-4` and `1e16` the digits of a decimal are written positionally. -/
theorem positional_text {d : Decimal} (hd : d.coefficient ≠ 0) (hlow : 10 ^ (-4 : Int) ≤ d.value)
    (hhigh : d.value < 10 ^ (16 : Int)) : Positional d.text d.value := by
  obtain ⟨hfirst, hlast⟩ := value_bounds hd
  have hleast : -4 < d.significantDigits.2 :=
    (zpow_lt_zpow_iff_right₀ (by norm_num)).mp (hlow.trans_lt hlast)
  have hgreatest : d.significantDigits.2 - 1 < 16 :=
    (zpow_lt_zpow_iff_right₀ (by norm_num)).mp (hfirst.trans_lt hhigh)
  have htext : d.text = positional d.significantDigits.1 d.significantDigits.2 :=
    if_pos ⟨hleast, Int.sub_one_lt_iff.mp hgreatest⟩
  rw [htext, ← d.value_significantDigits]
  exact positional_digits d.isDigit_of_mem_significantDigits (significantDigits_ne_nil hd) _

end Decimal

/-! ## Plain numbers -/

namespace Number

/-- Zero, and the numbers from `1e-4` up to `1e16`, which is none of them. -/
def IsPlain (x : Float) : Prop := x = 0 ∨ 1e-4 ≤ x ∧ x < 1e16

instance : DecidablePred IsPlain := fun x =>
  inferInstanceAs (Decidable (x = 0 ∨ 1e-4 ≤ x ∧ x < 1e16))

/-- The bits of `1e-4`. -/
def leastPlainBits : Nat := 0x3F1A36E2EB1C432D

/-- The bits of `1e16`. -/
def plainLimitBits : Nat := 0x4341C37937E08000

theorem IsPlain.bits {x : Float} (h : IsPlain x) :
    x = 0 ∨ leastPlainBits ≤ x.toBits.toNat ∧ x.toBits.toNat < plainLimitBits := by
  refine h.imp_right fun ⟨hlow, hhigh⟩ => ?_
  have hleast : IsPositive 1e-4 := ⟨_, _, _, rfl⟩
  have hlimit : IsPositive 1e16 := ⟨_, _, _, rfl⟩
  have hx := hleast.between hlimit hlow hhigh
  have hlowBits : (1e-4 : Float).toBits.toNat = leastPlainBits := by decide +kernel
  have hhighBits : (1e16 : Float).toBits.toNat = plainLimitBits := by decide +kernel
  exact ⟨hlowBits ▸ toBits_le_of_le hleast hx hlow, hhighBits ▸ toBits_lt_of_lt hx hlimit hhigh⟩

/-- The shortest decimal of a plain number lies within the bounds of plain numbers. -/
theorem shortest_bounds {bits : Nat} (hlow : leastPlainBits ≤ bits)
    (hhigh : bits < plainLimitBits) :
    10 ^ (-4 : Int) ≤ (Decimal.shortest bits).value ∧
      (Decimal.shortest bits).value < 10 ^ (16 : Int) := by
  have hfinite : bits < Binary64.infinityBits := hhigh.trans (by decide)
  have hbits := Decimal.toBits_shortest hfinite
  have hvalue (e : Int) : Decimal.value ⟨1, e⟩ = 10 ^ e := by simp [Decimal.value]
  constructor
  · by_contra hless
    -- A decimal below `1e-4` is rounded to `1e-4` at most, and `1e-4` is printed as it is.
    have hle : (Decimal.shortest bits).toBits ≤ Decimal.toBits ⟨1, -4⟩ :=
      Decimal.toBits_mono (by rw [hvalue]; exact (not_le.mp hless).le)
    have hleast : Decimal.toBits ⟨1, -4⟩ = leastPlainBits := by decide +kernel
    have heq : bits = leastPlainBits := Nat.le_antisymm (hleast ▸ hbits ▸ hle) hlow
    have hshortest : Decimal.shortest leastPlainBits = ⟨1, -4⟩ := by decide +kernel
    rw [heq, hshortest, hvalue] at hless
    exact hless le_rfl
  · by_contra hgreater
    have hle : Decimal.toBits ⟨1, 16⟩ ≤ (Decimal.shortest bits).toBits :=
      Decimal.toBits_mono (by rw [hvalue]; exact not_lt.mp hgreater)
    have hlimit : Decimal.toBits ⟨1, 16⟩ = plainLimitBits := by decide +kernel
    rw [hlimit, hbits] at hle
    exact absurd hhigh (Nat.not_lt.mpr hle)

/-- The full text of a plain number has digits on either side of a point, and what is written is
rounded to the number. -/
theorem IsPlain.positional_fullText {x : Float} (h : IsPlain x) : ∃ q,
    Decimal.Positional (fullText x) q ∧ ∀ d : Decimal, d.value = q → d.toFloat = x := by
  have hrounded {d d' : Decimal} (hvalue : d.value = d'.value)
      (hbits : d'.toBits = x.toBits.toNat) : d.toFloat = x := by
    rw [Decimal.toFloat, Decimal.toBits_congr hvalue, hbits, ofBits_toNat]
  rcases h.bits with rfl | ⟨hlow, hhigh⟩
  · have htext : fullText 0 = ['0'] ++ '.' :: ['0'] := by decide +kernel
    have hzero : (Decimal.ofDigits ['0'] ['0']).toBits = (0 : Float).toBits.toNat := by
      decide +kernel
    refine ⟨_, htext ▸ .digits ?_ ?_ ?_ ?_, fun d hd => hrounded hd hzero⟩
    · exact List.cons_ne_nil _ _
    · exact Decimal.isDigit_of_mem_zeros 1
    · exact List.cons_ne_nil _ _
    · exact Decimal.isDigit_of_mem_zeros 1
  · have hfinite : x.toBits.toNat < Binary64.infinityBits := hhigh.trans (by decide)
    have hmagnitude : x.toBits.toNat % Nat.pow 2 63 = x.toBits.toNat :=
      Nat.mod_eq_of_lt (hfinite.trans (by decide))
    have hleast : 0 < leastPlainBits := by decide
    have hnonzero : x.toBits.toNat ≠ 0 := (hleast.trans_le hlow).ne'
    have htext : fullText x = (Decimal.shortest x.toBits.toNat).text := by
      simp only [fullText, hmagnitude]
      rw [if_neg hfinite.not_gt, if_pos trivial, magnitudeText, if_neg hnonzero, if_neg hfinite.ne]
    have hbits := Decimal.toBits_shortest hfinite
    obtain ⟨hlow, hhigh⟩ := shortest_bounds hlow hhigh
    have hcoefficient : (Decimal.shortest x.toBits.toNat).coefficient ≠ 0 := by
      intro hzero
      rw [Decimal.value, hzero, Nat.cast_zero, zero_mul] at hlow
      exact absurd hlow (by norm_num)
    exact ⟨_, htext ▸ Decimal.positional_text hcoefficient hlow hhigh,
      fun d hd => hrounded hd hbits⟩

/-! ## Printed texts -/

/-- What is not a point stays. -/
theorem withoutPointZero_cons {c : Char} (hc : c ≠ '.') (rest : List Char) :
    withoutPointZero (c :: rest) = c :: withoutPointZero rest := by
  rw [withoutPointZero]
  exact fun hpoint _ => hc hpoint

/-- Digits stay. -/
theorem withoutPointZero_append {digits : List Char} (h : ∀ c ∈ digits, c.isDigit)
    (rest : List Char) : withoutPointZero (digits ++ rest) = digits ++ withoutPointZero rest := by
  induction digits with
  | nil => rfl
  | cons c digits ih =>
    obtain ⟨hc, hdigits⟩ := List.forall_mem_cons.mp h
    have hpoint : c ≠ '.' := by
      rintro rfl
      exact absurd hc (by decide)
    rw [List.cons_append, withoutPointZero_cons hpoint, ih hdigits, List.cons_append]

/-- A fraction is left out if it is zero. -/
theorem withoutPointZero_fraction {fraction : List Char} (h : ∀ c ∈ fraction, c.isDigit) :
    withoutPointZero ('.' :: fraction) = if fraction = ['0'] then [] else '.' :: fraction := by
  split
  · rename_i hzero
    rw [hzero]
    rfl
  · rename_i hzero
    have hdigits := withoutPointZero_append h []
    rw [withoutPointZero, List.append_nil] at hdigits
    rw [withoutPointZero, hdigits]
    exact fun _ h => hzero h

/-- Without the ending `.0`, digits around a point are spelled like a number, which has the same
value. -/
theorem spells_withoutPointZero {text : List Char} {q : ℚ} (h : Decimal.Positional text q) :
    (SegmentKind.token .number).Spells (withoutPointZero text) ∧ ∃ d : Decimal, d.value = q ∧
      Literal.ofNumberText (withoutPointZero text) = .number d.toFloat := by
  cases h with
  | @digits whole fraction someWhole allWhole someFraction allFraction =>
    rw [withoutPointZero_append allWhole, withoutPointZero_fraction allFraction]
    split
    · rename_i hzero
      have hvalue :
          (Decimal.ofDigits whole []).value = (Decimal.ofDigits whole fraction).value := by
        rw [hzero, Decimal.ofDigits_eq_pointed, Decimal.ofDigits_eq_pointed, List.append_nil]
        exact (Decimal.value_pointed_zeros_right whole 1 _).symm
      rw [List.append_nil]
      exact ⟨.whole someWhole allWhole, _, hvalue, Literal.ofNumberText_whole allWhole⟩
    · exact ⟨.decimal someWhole allWhole someFraction allFraction, _, rfl,
        Literal.ofNumberText_decimal allWhole fraction⟩

end Number

namespace Scan

/-- The scan of a text that is a number and nothing else. -/
def ofNumber (text : String) (x : Float) : Scan where
  tokens := [⟨.number, text, some (.number x), 1⟩]
  diagnostics := []
  endLine := 1

/-- The printed text of a plain number is scanned as the number. -/
theorem ofSource_text {x : Float} (h : Number.IsPlain x) :
    ofSource (Value.number x).text = ofNumber (Value.number x).text x := by
  obtain ⟨q, hpositional, hrounded⟩ := h.positional_fullText
  obtain ⟨hspells, d, hvalue, hliteral⟩ := Number.spells_withoutPointZero hpositional
  have hsegments := hspells.segments
  have hlines := hspells.newlines_eq_zero (by decide)
  rw [hrounded d hvalue] at hliteral
  have htext : (Value.number x).text = String.ofList (Number.printedText x) := rfl
  rw [htext, ofSource, String.toList_ofList]
  unfold Number.printedText ofNumber
  simp only [ofChars_eq, hsegments, numbered, hlines, List.filterMap_cons, List.filterMap_nil,
    Segment.token?, Segment.diagnostic?, Literal.ofToken?, hliteral]

/-- Plain numbers are read back from their printed texts, and so are the plain numbers that the
tokens of any scan carry. -/
theorem ofSource_printed :
    (∀ x, Number.IsPlain x →
      ofSource (Value.number x).text = ofNumber (Value.number x).text x) ∧
    ∀ source : String, ∀ t ∈ (ofSource source).tokens, t.kind = .number →
      ∃ x, t.literal = some (.number x) ∧ (Number.IsPlain x →
        ofSource (Value.number x).text = ofNumber (Value.number x).text x) := by
  refine ⟨fun x => ofSource_text, fun source t ht hkind => ?_⟩
  obtain ⟨kind, text, literal, line⟩ := t
  obtain rfl : kind = .number := hkind
  have hcarries : TokenKind.number.Carries text.toList literal := (wellFormed ht).carries
  generalize text.toList = chars at hcarries
  cases hcarries with
  | whole all => exact ⟨_, rfl, ofSource_text⟩
  | decimal all => exact ⟨_, rfl, ofSource_text⟩
  | nothing _ noNumber => exact absurd rfl noNumber

/-- A sum with seventeen digits, and a token that is printed with fewer digits than it has. -/
theorem ofSource_printed_sum : ∃ x, ∃ t ∈ (ofSource "x * 007.50;").tokens,
    Number.IsPlain x ∧ (Value.number x).text = "0.30000000000000004" ∧
      ofSource (Value.number x).text = ofNumber (Value.number x).text x ∧
    t.kind = .number ∧ ∃ y, t.literal = some (.number y) ∧
      Number.IsPlain y ∧ (Value.number y).text = "7.5" ∧
      ofSource (Value.number y).text = ofNumber (Value.number y).text y := by
  have hx : Number.IsPlain (0.1 + 0.2) := by decide +kernel
  have htokens : (ofSource "x * 007.50;").tokens[2]? =
      some ⟨.number, "007.50", some (.number 7.5), 1⟩ := by decide +kernel
  have ht := List.mem_of_getElem? htokens
  obtain ⟨y, hy, hread⟩ := ofSource_printed.2 _ _ ht rfl
  obtain rfl : 7.5 = y := by simpa using hy
  have hplain : Number.IsPlain 7.5 := by decide +kernel
  refine ⟨0.1 + 0.2, _, ht, hx, ?_, ofSource_printed.1 _ hx, rfl, _, rfl, hplain, ?_, hread hplain⟩
  · decide +kernel
  · decide +kernel

end Scan

end ClassScript
