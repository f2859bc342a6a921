import ClassScript.Decimal.Text
import ClassScript.Proofs.Decimal.Rounding
import Mathlib.Data.List.TakeWhile

/-!
# Reading the text of a decimal

The text of a decimal is read by `Decimal.ofText`: digits, a fraction and an exponent, the last
two of which may be missing.  What is read need not be the decimal that was written, since the
text leaves out zeros at the end, but it has the same value (`Decimal.ofText_text`).  So it is
rounded to the same double.

The digits of a text are compared by the value they have with a point in front of them, or
further to the right (`Decimal.pointed`).  Zeros at either end do not change it.
-/

namespace ClassScript.Decimal

/-! ## Digits around a point -/

/-- The decimal `0.d₁d₂… * 10 ^ point`. -/
def pointed (digits : List Char) (point : Int) : Decimal :=
  ⟨Nat.ofDigitChars 10 digits 0, point - digits.length⟩

theorem ofDigits_eq_pointed (whole fraction : List Char) :
    ofDigits whole fraction = pointed (whole ++ fraction) whole.length := by
  simp [ofDigits, pointed]

theorem pointed_whole {whole : List Char} {point : Int} (h : (whole.length : Int) = point)
    (fraction : List Char) : pointed (whole ++ fraction) point = ofDigits whole fraction := by
  rw [ofDigits_eq_pointed, h]

theorem pointed_zeros_left (k : Nat) (digits : List Char) (point : Int) :
    pointed (List.replicate k '0' ++ digits) (point + k) = pointed digits point := by
  simp only [pointed, Nat.ofDigitChars_append, Nat.ofDigitChars_replicate_zero, Nat.mul_zero,
    List.length_append, List.length_replicate, mk.injEq, true_and]
  omega

theorem value_pointed_zeros_right (digits : List Char) (k : Nat) (point : Int) :
    (pointed (digits ++ List.replicate k '0') point).value = (pointed digits point).value := by
  have hexponent : point - (digits.length + k : Nat) = point - digits.length + -k := by omega
  simp only [pointed, value, Nat.ofDigitChars_append, Nat.ofDigitChars_replicate_zero,
    List.length_append, List.length_replicate, hexponent]
  rw [zpow_add₀ (by norm_num), zpow_neg, zpow_natCast]
  push_cast
  field_simp

section

variable (d : Decimal)

theorem isDigit_of_mem_significantDigits : ∀ c ∈ d.significantDigits.1, c.isDigit := by
  intro c hc
  rw [significantDigits, List.mem_reverse] at hc
  have hmem := (List.dropWhile_sublist _).subset hc
  exact Nat.isDigit_of_mem_toDigits (by decide) (by decide) (List.mem_reverse.mp hmem)

/-- The digits of the coefficient are the significant digits and zeros. -/
theorem exists_toDigits_eq : ∃ k : Nat,
    Nat.toDigits 10 d.coefficient = d.significantDigits.1 ++ List.replicate k '0' := by
  let digits := (Nat.toDigits 10 d.coefficient).reverse
  have hzeros : digits.takeWhile (· = '0') =
      List.replicate (digits.takeWhile (· = '0')).length '0' := by
    refine List.eq_replicate_of_mem fun c hc => ?_
    simpa using List.mem_takeWhile_imp hc
  have hsplit := congrArg List.reverse
    (List.takeWhile_append_dropWhile (p := (· = '0')) (l := digits))
  rw [List.reverse_append, hzeros, List.reverse_replicate, List.reverse_reverse] at hsplit
  exact ⟨_, hsplit.symm⟩

theorem value_significantDigits :
    (pointed d.significantDigits.1 d.significantDigits.2).value = d.value := by
  obtain ⟨k, hk⟩ := d.exists_toDigits_eq
  have hpoint : d.significantDigits.2 = (Nat.toDigits 10 d.coefficient).length + d.exponent := rfl
  rw [← value_pointed_zeros_right _ k, ← hk, hpoint]
  simp [pointed, Nat.ofDigitChars_toDigits]

variable {d}

theorem significantDigits_ne_nil (hd : d.coefficient ≠ 0) : d.significantDigits.1 ≠ [] := by
  intro hnil
  obtain ⟨k, hk⟩ := d.exists_toDigits_eq
  have hvalue := Nat.ofDigitChars_toDigits (b := 10) (n := d.coefficient) (by decide) (by decide)
  rw [hk, hnil, List.nil_append, Nat.ofDigitChars_replicate_zero, Nat.mul_zero] at hvalue
  exact hd hvalue.symm

end

/-- Texts of digits on either side of a point, with the numbers that they stand for. -/
inductive Positional : List Char → ℚ → Prop
  | digits {whole fraction : List Char} (someWhole : whole ≠ [])
      (allWhole : ∀ c ∈ whole, c.isDigit) (someFraction : fraction ≠ [])
      (allFraction : ∀ c ∈ fraction, c.isDigit) :
      Positional (whole ++ '.' :: fraction) (ofDigits whole fraction).value

theorem isDigit_of_mem_zeros (k : Nat) : ∀ c ∈ List.replicate k '0', c.isDigit := fun c hc =>
  List.eq_of_mem_replicate hc ▸ by decide

section

variable {digits : List Char} (hdigits : ∀ c ∈ digits, c.isDigit) {point : Int}
include hdigits

/-- The point in front of the digits. -/
theorem positional_inFront (hne : digits ≠ []) (hpoint : point ≤ 0) :
    Positional ('0' :: '.' :: (List.replicate (-point).toNat '0' ++ digits))
      (pointed digits point).value := by
  have hall : ['0'] ++ (List.replicate (-point).toNat '0' ++ digits) =
      List.replicate ((-point).toNat + 1) '0' ++ digits := by
    rw [List.replicate_succ, ← List.append_assoc]
    rfl
  have hwhole : (['0'].length : Int) = point + ((-point).toNat + 1 : Nat) := by
    rw [List.length_singleton]
    omega
  rw [← pointed_zeros_left ((-point).toNat + 1), ← hall, pointed_whole hwhole]
  exact .digits (List.cons_ne_nil _ _) (isDigit_of_mem_zeros 1) (by simp [hne])
    (List.forall_mem_append.mpr ⟨isDigit_of_mem_zeros _, hdigits⟩)

/-- The point behind the digits. -/
theorem positional_behind (hne : digits ≠ []) (hpoint : 0 < point)
    (hlength : digits.length ≤ point.toNat) :
    Positional (digits ++ List.replicate (point.toNat - digits.length) '0' ++ ['.', '0'])
      (pointed digits point).value := by
  have hall : digits ++ List.replicate (point.toNat - digits.length) '0' ++ ['0'] =
      digits ++ List.replicate (point.toNat - digits.length + 1) '0' := by
    rw [List.replicate_succ', List.append_assoc]
  have hwhole : ((digits ++ List.replicate (point.toNat - digits.length) '0').length : Int) =
      point := by
    rw [List.length_append, List.length_replicate]
    omega
  rw [← value_pointed_zeros_right digits (point.toNat - digits.length + 1), ← hall,
    pointed_whole hwhole]
  exact .digits (by simp [hne]) (List.forall_mem_append.mpr ⟨hdigits, isDigit_of_mem_zeros _⟩)
    (List.cons_ne_nil _ _) (isDigit_of_mem_zeros 1)

/-- The point among the digits. -/
theorem positional_among (hpoint : 0 < point) (hlength : point.toNat < digits.length) :
    Positional (digits.take point.toNat ++ '.' :: digits.drop point.toNat)
      (pointed digits point).value := by
  have hwhole : ((digits.take point.toNat).length : Int) = point := by
    rw [List.length_take]
    omega
  have hvalue := pointed_whole hwhole (digits.drop point.toNat)
  rw [List.take_append_drop] at hvalue
  have hsome : digits.take point.toNat ≠ [] := by
    intro hnil
    rw [hnil, List.length_nil] at hwhole
    omega
  rw [hvalue]
  exact .digits hsome (fun c hc => hdigits c (List.mem_of_mem_take hc))
    (mt List.drop_eq_nil_iff.mp (Nat.not_le_of_lt hlength))
    (fun c hc => hdigits c (List.mem_of_mem_drop hc))

/-- Digits around a point keep their value. -/
theorem positional_digits (hne : digits ≠ []) (point : Int) :
    Positional (positional digits point) (pointed digits point).value := by
  unfold positional
  split
  · rename_i hpoint
    exact positional_inFront hdigits hne hpoint
  · rename_i hpoint
    split
    · rename_i hlength
      exact positional_behind hdigits hne (Int.not_le.mp hpoint) hlength
    · rename_i hlength
      exact positional_among hdigits (Int.not_le.mp hpoint) (Nat.not_le.mp hlength)

end

/-! ## Reading -/

/-- The exponent behind the digits of a number. -/
def exponentOfText : List Char → Option Int
  | [] => some 0
  | 'e' :: '+' :: digits => some (Nat.ofDigitChars 10 digits 0)
  | 'e' :: '-' :: digits => some (-(Nat.ofDigitChars 10 digits 0 : Int))
  | _ => none

/-- The digits behind a point, if there is one, and the text after them. -/
def fractionOfText : List Char → List Char × List Char
  | '.' :: rest => (rest.takeWhile Char.isDigit, rest.dropWhile Char.isDigit)
  | text => ([], text)

/-- A decimal with its point moved to the right. -/
def shifted (d : Decimal) (e : Int) : Decimal := ⟨d.coefficient, d.exponent + e⟩

/-- Reads digits, a fraction and an exponent. -/
def ofText (text : List Char) : Option Decimal :=
  let whole := text.takeWhile Char.isDigit
  let fraction := fractionOfText (text.dropWhile Char.isDigit)
  (exponentOfText fraction.2).map (ofDigits whole fraction.1).shifted

theorem value_shifted (d : Decimal) (e : Int) : (d.shifted e).value = d.value * 10 ^ e := by
  rw [shifted, value, value, zpow_add₀ (by norm_num), mul_assoc]

theorem value_pointed_shifted (digits : List Char) (point e : Int) :
    ((pointed digits point).shifted e).value = (pointed digits (point + e)).value := by
  simp only [pointed, shifted]
  rw [sub_add_eq_add_sub]

/-- What stands behind the digits of a number does not start with a digit or a point. -/
theorem exponentOfText_cases {text : List Char} {e : Int} (h : exponentOfText text = some e) :
    text = [] ∨ ∃ rest, text = 'e' :: rest := by
  unfold exponentOfText at h
  split at h <;> simp_all

section

variable {whole rest : List Char} (hwhole : ∀ c ∈ whole, c.isDigit) {e : Int}
  (he : exponentOfText rest = some e)
include he

theorem takeWhile_exponent : rest.takeWhile Char.isDigit = [] ∧ rest.dropWhile Char.isDigit = rest ∧
    fractionOfText rest = ([], rest) := by
  rcases exponentOfText_cases he with rfl | ⟨after, rfl⟩
  · exact ⟨rfl, rfl, rfl⟩
  · exact ⟨rfl, rfl, rfl⟩

include hwhole

theorem ofText_whole : ofText (whole ++ rest) = some ((ofDigits whole []).shifted e) := by
  obtain ⟨htake, hdrop, hfraction⟩ := takeWhile_exponent he
  unfold ofText
  dsimp only
  rw [List.takeWhile_append_of_pos hwhole, List.dropWhile_append_of_pos hwhole, htake, hdrop,
    hfraction, List.append_nil, he, Option.map_some]

theorem ofText_fraction {fraction : List Char} (hfraction : ∀ c ∈ fraction, c.isDigit) :
    ofText (whole ++ '.' :: (fraction ++ rest)) = some ((ofDigits whole fraction).shifted e) := by
  obtain ⟨htake, hdrop, -⟩ := takeWhile_exponent he
  have hpoint : fractionOfText ('.' :: (fraction ++ rest)) = (fraction, rest) := by
    rw [fractionOfText, List.takeWhile_append_of_pos hfraction,
      List.dropWhile_append_of_pos hfraction, htake, hdrop, List.append_nil]
  unfold ofText
  dsimp only
  rw [List.takeWhile_append_of_pos hwhole, List.dropWhile_append_of_pos hwhole,
    List.takeWhile_cons_of_neg (by decide), List.dropWhile_cons_of_neg (by decide), hpoint,
    List.append_nil, he, Option.map_some]

end

theorem exponentOfText_exponentText (e : Int) :
    exponentOfText ('e' :: exponentText e) = some e := by
  have hdigits : Nat.ofDigitChars 10 (if (Nat.toDigits 10 e.natAbs).length < 2
      then '0' :: Nat.toDigits 10 e.natAbs else Nat.toDigits 10 e.natAbs) 0 = e.natAbs := by
    split <;> simp [Nat.ofDigitChars_cons, Nat.ofDigitChars_toDigits]
  unfold exponentText
  split
  · simp only [exponentOfText, hdigits, Option.some.injEq]
    omega
  · simp only [exponentOfText, hdigits, Option.some.injEq]
    omega

/-- One digit, the others behind a point, and the exponent are read as written. -/
theorem ofText_scientific {digits : List Char} (hdigits : ∀ c ∈ digits, c.isDigit)
    (hne : digits ≠ []) (point : Int) : ∃ d, ofText (scientific digits point) = some d ∧
      d.value = (pointed digits point).value := by
  have hexponent := exponentOfText_exponentText (point - 1)
  have hvalue (fraction : List Char) (d : Char) :
      ((ofDigits [d] fraction).shifted (point - 1)).value =
        (pointed (d :: fraction) point).value := by
    rw [ofDigits_eq_pointed, value_pointed_shifted, List.length_singleton, Nat.cast_one,
      add_sub_cancel]
    rfl
  unfold scientific
  match digits with
  | [] => exact absurd rfl hne
  | [d] => exact ⟨_, ofText_whole hdigits hexponent, hvalue [] d⟩
  | d :: d' :: rest =>
    obtain ⟨hfirst, hothers⟩ := List.forall_mem_cons.mp hdigits
    have hwhole : ∀ c ∈ [d], c.isDigit := by simpa using hfirst
    exact ⟨_, ofText_fraction hwhole hexponent hothers, hvalue (d' :: rest) d⟩

/-- Digits around a point are read as written. -/
theorem ofText_positional {text : List Char} {q : ℚ} (h : Positional text q) :
    ∃ d, ofText text = some d ∧ d.value = q := by
  cases h with
  | digits _ allWhole _ allFraction =>
    have hread := ofText_fraction allWhole (rfl : exponentOfText [] = some 0) allFraction
    rw [List.append_nil] at hread
    exact ⟨_, hread, by rw [value_shifted, zpow_zero, mul_one]⟩

/-- The text of a decimal is read as a decimal of the same value. -/
theorem ofText_text {d : Decimal} (hd : d.coefficient ≠ 0) :
    ∃ d', ofText d.text = some d' ∧ d'.value = d.value := by
  have hdigits := d.isDigit_of_mem_significantDigits
  have hne := significantDigits_ne_nil hd
  rw [← d.value_significantDigits]
  unfold text
  dsimp only
  split
  · exact ofText_positional (positional_digits hdigits hne d.significantDigits.2)
  · exact ofText_scientific hdigits hne d.significantDigits.2

/-- The double nearest to a decimal is read off the text of the decimal. -/
theorem toBits_ofText_text {d : Decimal} (hd : d.coefficient ≠ 0) :
    (ofText d.text).map toBits = some d.toBits := by
  obtain ⟨d', hread, hvalue⟩ := ofText_text hd
  rw [hread, Option.map_some, toBits_congr hvalue]

/-! ## The characters of a text -/

/-- Whether a character can stand in the text of a number. -/
def isNumberPart (c : Char) : Bool :=
  c.isDigit || c = '.' || c = 'e' || c = '+' || c = '-'

/-- A text that starts with a digit, consists of the characters of a number, and does not consist
of digits alone. -/
structure NumberShape (text : List Char) : Prop where
  first : ∃ c rest, text = c :: rest ∧ c.isDigit
  parts : ∀ c ∈ text, isNumberPart c
  notDigits : ∃ c ∈ text, ¬ c.isDigit

theorem isNumberPart_of_isDigit {digits : List Char} (h : ∀ c ∈ digits, c.isDigit) :
    ∀ c ∈ digits, isNumberPart c := fun c hc => by simp [isNumberPart, h c hc]

/-- Digits with something behind them that is not a digit. -/
theorem NumberShape.of_digits {whole rest : List Char} (hne : whole ≠ [])
    (hwhole : ∀ c ∈ whole, c.isDigit) (hrest : ∀ c ∈ rest, isNumberPart c)
    (hother : ∃ c ∈ rest, ¬ c.isDigit) : NumberShape (whole ++ rest) := by
  refine ⟨?_, fun c hc => ?_, ?_⟩
  · obtain ⟨c, more, rfl⟩ := List.exists_cons_of_ne_nil hne
    exact ⟨c, more ++ rest, rfl, hwhole c (List.mem_cons_self ..)⟩
  · exact (List.mem_append.mp hc).elim (isNumberPart_of_isDigit hwhole c) (hrest c)
  · obtain ⟨c, hc, hdigit⟩ := hother
    exact ⟨c, List.mem_append_right _ hc, hdigit⟩

theorem isNumberPart_exponentText (e : Int) : ∀ c ∈ exponentText e, isNumberPart c := by
  have hdigits : ∀ c ∈ Nat.toDigits 10 e.natAbs, isNumberPart c :=
    isNumberPart_of_isDigit fun c hc => Nat.isDigit_of_mem_toDigits (by decide) (by decide) hc
  intro c hc
  rcases List.mem_cons.mp hc with rfl | hc
  · split <;> decide
  · split at hc
    · rcases List.mem_cons.mp hc with rfl | hc
      · decide
      · exact hdigits c hc
    · exact hdigits c hc

theorem numberShape_scientific {digits : List Char} (hdigits : ∀ c ∈ digits, c.isDigit)
    (hne : digits ≠ []) (point : Int) : NumberShape (scientific digits point) := by
  have hexponent : ∀ c ∈ 'e' :: exponentText (point - 1), isNumberPart c :=
    List.forall_mem_cons.mpr ⟨by decide, isNumberPart_exponentText _⟩
  unfold scientific
  match digits with
  | [] => exact absurd rfl hne
  | [d] => exact .of_digits hne hdigits hexponent ⟨'e', List.mem_cons_self .., by decide⟩
  | d :: d' :: rest =>
    obtain ⟨hfirst, hothers⟩ := List.forall_mem_cons.mp hdigits
    have hwhole : ∀ c ∈ [d], c.isDigit := by simpa using hfirst
    have hrest : ∀ c ∈ '.' :: (d' :: rest ++ 'e' :: exponentText (point - 1)), isNumberPart c := by
      refine List.forall_mem_cons.mpr ⟨by decide, fun c hc => ?_⟩
      exact (List.mem_append.mp hc).elim (isNumberPart_of_isDigit hothers c) (hexponent c)
    have hshape := NumberShape.of_digits (List.cons_ne_nil d []) hwhole hrest
      ⟨'.', List.mem_cons_self .., by decide⟩
    exact hshape

theorem numberShape_positional {text : List Char} {q : ℚ} (h : Positional text q) :
    NumberShape text := by
  cases h with
  | digits someWhole allWhole _ allFraction =>
    exact .of_digits someWhole allWhole
      (List.forall_mem_cons.mpr ⟨by decide, isNumberPart_of_isDigit allFraction⟩)
      ⟨'.', List.mem_cons_self .., by decide⟩

theorem numberShape_text {d : Decimal} (hd : d.coefficient ≠ 0) : NumberShape d.text := by
  have hdigits := d.isDigit_of_mem_significantDigits
  have hne := significantDigits_ne_nil hd
  unfold text
  dsimp only
  split
  · exact numberShape_positional (positional_digits hdigits hne d.significantDigits.2)
  · exact numberShape_scientific hdigits hne d.significantDigits.2

end ClassScript.Decimal
