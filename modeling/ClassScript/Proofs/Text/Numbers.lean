import ClassScript.Proofs.Decimal.Reading
import ClassScript.Text.Json
import Mathlib

/-!
# Reading the number of a JSON text

Every number is read back from its text in a JSON value, as the number it was
(`Number.ofText_numberText`).  A finite number has the text of its shortest decimal, which rounds
to its bits.  Infinity and the one number that is not a number are words.

That the bits of a number make that number again (`Float.ofBits_toBits`) is a lemma that no part
of the library has by itself, so this module imports it whole.
-/

namespace ClassScript.Number

open Float.Model (Format)
open Float.Model.UnpackedFloat (unpackExponent unpackMantissa unpackExponent_def
  unpackMantissa_def)

/-- The bits of the number that is not a number. -/
def nanBits : Nat := 0x7FF8000000000000

/-- The bits of the nonnegative number with the given text. -/
def bitsOfText (text : List Char) : Option Nat :=
  if text = "NaN".toList then some nanBits
  else if text = "Infinity".toList then some Binary64.infinityBits
  else (Decimal.ofText text).map Decimal.toBits

/-- Reads a number, with a sign in front of a negative one. -/
def ofText : List Char → Option Float
  | '-' :: text => (bitsOfText text).map fun bits => Float.ofBits (bits + Nat.pow 2 63).toUInt64
  | text => (bitsOfText text).map fun bits => Float.ofBits bits.toUInt64

/-! ## The bits of a number -/

theorem ofBits_toNat (x : Float) : Float.ofBits x.toBits.toNat.toUInt64 = x := by
  have hbits : x.toBits.toNat.toUInt64 = x.toBits := UInt64.ofNat_toNat
  rw [hbits, Float.ofBits_toBits]

/-- There is one number that is not a number. -/
theorem ofBits_nanBits {x : Float} (hx : Binary64.infinityBits < x.toBits.toNat % Nat.pow 2 63) :
    Float.ofBits nanBits.toUInt64 = x := by
  let bits : BitVec Format.binary64.numBits := x.toBits.toBitVec
  have hbits : Binary64.infinityBits < bits.toNat % 2 ^ 63 := hx
  unfold Binary64.infinityBits at hbits
  have hexponent : unpackExponent bits = -1#_ := by
    rw [unpackExponent_def]
    apply BitVec.eq_of_toNat_eq
    rw [BitVec.extractLsb'_toNat, Nat.shiftRight_eq_div_pow]
    change bits.toNat / 2 ^ 52 % 2 ^ 11 = 2047
    omega
  have hmantissa : unpackMantissa bits ≠ 0#_ := by
    rw [unpackMantissa_def]
    intro hzero
    have hfraction : bits.toNat / 2 ^ 0 % 2 ^ 52 = 0 := by
      rw [← Nat.shiftRight_eq_div_pow]
      exact (BitVec.extractLsb'_toNat ..).symm.trans (congrArg BitVec.toNat hzero)
    omega
  have hnan := x.toModel.valid.eq_packedNaN hexponent hmantissa
  have heq : x.toBits = nanBits.toUInt64 := UInt64.toBitVec_inj.mp hnan
  rw [← heq, Float.ofBits_toBits]

/-! ## Texts of numbers -/

/-- The texts of the nonnegative numbers, by their bits. -/
inductive Magnitude : Nat → List Char → Prop
  | finite {bits : Nat} (h : bits < Binary64.infinityBits) : Magnitude bits (magnitudeText bits)
  | infinity : Magnitude Binary64.infinityBits "Infinity".toList

/-- The text of a number: that of its magnitude behind the sign, or the word for the number that
is not a number. -/
inductive Written (x : Float) : List Char → Prop
  | nonnegative {text : List Char} (h : Magnitude x.toBits.toNat text) : Written x text
  | negative {bits : Nat} {text : List Char} (h : Magnitude bits text)
      (hx : x.toBits.toNat = bits + Nat.pow 2 63) : Written x ('-' :: text)
  | nan (hx : Binary64.infinityBits < x.toBits.toNat % Nat.pow 2 63) : Written x "NaN".toList

theorem written_numberText (x : Float) : Written x (Json.numberText x) := by
  have hlt : x.toBits.toNat < 2 ^ 64 := x.toBits.toNat_lt
  generalize hmagnitude : x.toBits.toNat % Nat.pow 2 63 = magnitude
  have hnegative (h : magnitude ≠ x.toBits.toNat) : x.toBits.toNat = magnitude + Nat.pow 2 63 := by
    rw [Nat.pow_eq] at hmagnitude ⊢
    omega
  simp only [Json.numberText, fullText, hmagnitude]
  rcases Nat.lt_trichotomy magnitude Binary64.infinityBits with hfinite | hinfinite | hnan
  · rw [if_pos hfinite, if_neg hfinite.asymm]
    split
    · rename_i hsign
      rw [hsign] at hfinite ⊢
      exact .nonnegative (.finite hfinite)
    · rename_i hsign
      exact .negative (.finite hfinite) (hnegative hsign)
  · rw [if_neg hinfinite.not_lt, if_neg hinfinite.not_gt]
    split
    · rename_i hsign
      refine .nonnegative ?_
      rw [← hsign, hinfinite]
      exact .infinity
    · rename_i hsign
      have hbits := hnegative hsign
      rw [hinfinite] at hbits
      exact .negative .infinity hbits
  · rw [if_neg hnan.asymm, if_pos hnan]
    exact .nan (hmagnitude ▸ hnan)

/-- The text of a nonnegative finite number has the shape of a number, and its bits are read
off it. -/
theorem magnitudeText_spec {bits : Nat} (h : bits < Binary64.infinityBits) :
    Decimal.NumberShape (magnitudeText bits) ∧
      (Decimal.ofText (magnitudeText bits)).map Decimal.toBits = some bits := by
  unfold magnitudeText
  by_cases hzero : bits = 0
  · rw [if_pos hzero]
    have hshape : Decimal.NumberShape (['0'] ++ ['.', '0']) :=
      .of_digits (by decide) (List.all_eq_true.mp (by decide)) (List.all_eq_true.mp (by decide))
        ⟨'.', by decide, by decide⟩
    have hread : Decimal.ofText ['0', '.', '0'] = some ⟨0, -1⟩ := by decide
    refine ⟨hshape, ?_⟩
    rw [hread, Option.map_some, Decimal.toBits_zero, hzero]
  · have hbits := Decimal.toBits_shortest h
    have hcoefficient : (Decimal.shortest bits).coefficient ≠ 0 := by
      intro hnone
      have heq : Decimal.shortest bits = ⟨0, (Decimal.shortest bits).exponent⟩ := by
        rw [← hnone]
      rw [heq, Decimal.toBits_zero] at hbits
      exact hzero hbits.symm
    rw [if_neg hzero, if_neg h.ne]
    exact ⟨Decimal.numberShape_text hcoefficient,
      (Decimal.toBits_ofText_text hcoefficient).trans (congrArg some hbits)⟩

theorem bitsOfText_eq {bits : Nat} {text : List Char} (h : Magnitude bits text) :
    bitsOfText text = some bits := by
  cases h with
  | finite hfinite =>
    obtain ⟨hshape, hread⟩ := magnitudeText_spec hfinite
    obtain ⟨c, rest, heq, hdigit⟩ := hshape.first
    have hne {word : String} {d : Char} {letters : List Char} (hword : word.toList = d :: letters)
        (hletter : ¬ d.isDigit) : magnitudeText bits ≠ word.toList := by
      rw [heq, hword]
      rintro ⟨⟩
      exact hletter hdigit
    unfold bitsOfText
    rw [if_neg (hne rfl (by decide)), if_neg (hne rfl (by decide)), hread]
  | infinity => rfl

/-- Whether a character can stand in a word of a JSON text, which is a number or a constant. -/
def isWordPart (c : Char) : Bool :=
  c.isAlphanum || c = '.' || c = '+' || c = '-'

/-- A word that stands for a number, with the characters it can start with. -/
structure NumberWord (start : List Char) (text : List Char) : Prop where
  first : ∃ c rest, text = c :: rest ∧ (c.isDigit ∨ c ∈ start)
  parts : ∀ c ∈ text, isWordPart c
  notDigits : ∃ c ∈ text, ¬ c.isDigit

theorem isWordPart_of_isNumberPart {c : Char} (h : Decimal.isNumberPart c) : isWordPart c := by
  simp only [Decimal.isNumberPart, Bool.or_eq_true, decide_eq_true_eq] at h
  rcases h with (((hdigit | rfl) | rfl) | rfl) | rfl
  · simp [isWordPart, Char.isAlphanum, hdigit]
  all_goals decide

theorem numberWord_of_magnitude {bits : Nat} {text : List Char} (h : Magnitude bits text) :
    NumberWord ['I'] text := by
  cases h with
  | finite hfinite =>
    have hshape := (magnitudeText_spec hfinite).1
    obtain ⟨c, rest, heq, hdigit⟩ := hshape.first
    exact ⟨⟨c, rest, heq, .inl hdigit⟩, fun c hc => isWordPart_of_isNumberPart (hshape.parts c hc),
      hshape.notDigits⟩
  | infinity =>
    exact ⟨⟨'I', _, rfl, by decide⟩, List.all_eq_true.mp (by decide), ⟨'I', by decide, by decide⟩⟩

theorem numberWord_numberText (x : Float) : NumberWord ['I', '-', 'N'] (Json.numberText x) := by
  generalize hwritten : Json.numberText x = text
  have hwritten : Written x text := hwritten ▸ written_numberText x
  cases hwritten with
  | nonnegative h =>
    obtain ⟨⟨c, rest, heq, hfirst⟩, hparts, hnotDigits⟩ := numberWord_of_magnitude h
    exact ⟨⟨c, rest, heq, hfirst.imp_right (List.mem_append_left ['-', 'N'])⟩, hparts, hnotDigits⟩
  | negative h hx =>
    have hword := numberWord_of_magnitude h
    exact ⟨⟨'-', _, rfl, by decide⟩, List.forall_mem_cons.mpr ⟨by decide, hword.parts⟩,
      ⟨'-', List.mem_cons_self .., by decide⟩⟩
  | nan hx =>
    exact ⟨⟨'N', _, rfl, by decide⟩, List.all_eq_true.mp (by decide), ⟨'N', by decide, by decide⟩⟩

theorem ofText_of_magnitude {bits : Nat} {text : List Char} (h : Magnitude bits text) :
    ofText text = some (Float.ofBits bits.toUInt64) ∧
      ofText ('-' :: text) = some (Float.ofBits (bits + Nat.pow 2 63).toUInt64) := by
  have hread := bitsOfText_eq h
  have hunsigned (rest : List Char) : text ≠ '-' :: rest := by
    rintro rfl
    obtain ⟨c, rest, heq, hfirst⟩ := (numberWord_of_magnitude h).first
    cases heq
    exact absurd hfirst (by decide)
  simp [ofText, hread]

/-- Every number is read back from its text. -/
theorem ofText_numberText (x : Float) : ofText (Json.numberText x) = some x := by
  generalize hwritten : Json.numberText x = text
  have hwritten : Written x text := hwritten ▸ written_numberText x
  cases hwritten with
  | nonnegative h => rw [(ofText_of_magnitude h).1, ofBits_toNat]
  | negative h hx => rw [(ofText_of_magnitude h).2, ← hx, ofBits_toNat]
  | nan hx => exact congrArg some (ofBits_nanBits hx)

end ClassScript.Number
