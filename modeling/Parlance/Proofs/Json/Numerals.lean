import Parlance.Json.Draft
import Parlance.Proofs.Number.Whole

/-! Reading the numerals of whole numbers. A point stands in every numeral, so the digits are read as ten times the
number and divided by ten in doubles: as long as ten times the number has few enough bits, nothing is lost. -/

namespace Parlance.Json

open Number

/-- Whether a whole number comes back when the double of its tenfold is divided by ten. -/
def Steady (k : Nat) : Prop := divMagnitude (Number.ofNat (k * 10)) (Number.ofNat 10) = Number.ofNat k

instance (k : Nat) : Decidable (Steady k) := inferInstanceAs (Decidable (_ = _))

/-- Whole numbers are steady up to a tenth of the numbers of fifty-four bits. -/
theorem steady_of_le {k : Nat} (hk : k * 10 ≤ 2 ^ 54 - 1) : Steady k := by
  -- the tenfold is even, so it has a bit more
  obtain ⟨tenfold, hfinite, hsign, hunits⟩ := exists_units (m := k * 5) (t := granularity + 1) (by omega) (by decide)
  have htenfold : tenfold.units = k * 10 * Nat.pow 2 granularity := by
    rw [hunits, two_pow_succ, Nat.mul_assoc k 5, ← Nat.mul_assoc 5, Nat.mul_assoc k 10]
  have hself : Number.ofNat (k * 10) = tenfold := by
    rw [Number.ofNat, ← hsign]
    exact ofRatio_exact hfinite Nat.one_pos (by rw [htenfold, Nat.mul_one])
  have hten : (Number.ofNat 10).units = 10 * Nat.pow 2 granularity := (IsWholeOf.ofNat (by decide)).1.units
  obtain ⟨hown, hpositive⟩ := IsWholeOf.ofNat (k := k) (by omega)
  rw [Steady, divMagnitude, hself, ← hpositive]
  refine ofRatio_exact hown.finite ?_ ?_
  · rw [hten]
    exact Nat.mul_pos (by decide) (two_pow_pos granularity)
  · rw [htenfold, hten, hown.units]
    generalize Nat.pow 2 granularity = g
    rw [Nat.mul_assoc k 10 g, Nat.mul_assoc k (10 * g) g, Nat.mul_assoc k g, Nat.mul_comm (10 * g) g]

/-- The least whole number that does not come back. -/
theorem not_steady : ¬ Steady 1801439850948199 := by decide +kernel

/-- What stands behind a numeral does not belong to it. -/
def Follows (rest : List Char) : Prop := ∀ c ∈ rest.head?, c.isDigit = false ∧ c ≠ 'e' ∧ c ≠ 'E'

variable {k : Nat} {cs rest : List Char}

/-- Digits add up to at least what they start from. -/
theorem le_ofDigitChars (cs : List Char) (start : Nat) : start ≤ Nat.ofDigitChars 10 cs start := by
  induction cs generalizing start with
  | nil => simp
  | cons c cs ih =>
      rw [Nat.ofDigitChars_cons]
      exact Nat.le_trans (by omega) (ih _)

/-- All digits are kept if the number that they make is small enough. -/
theorem absorb_eq {start : Nat} (hlimit : Nat.ofDigitChars 10 cs start ≤ significandLimit) :
    absorb start cs = (Nat.ofDigitChars 10 cs start, cs.length) := by
  induction cs generalizing start with
  | nil => simp [absorb]
  | cons c cs ih =>
      rw [Nat.ofDigitChars_cons, Nat.mul_comm 10] at hlimit
      have hnext : start * 10 + (c.toNat - '0'.toNat) ≤ significandLimit := Nat.le_trans (le_ofDigitChars cs _) hlimit
      rw [absorb, if_neg (Nat.not_lt.mpr hnext), ih hlimit, Nat.ofDigitChars_cons, Nat.mul_comm 10]
      rfl

/-- The digits of a number are taken as a whole, and what stands behind them is left. -/
theorem takeWhile_digits (k : Nat) (rest : List Char) (hrest : ∀ c ∈ rest.head?, c.isDigit = false) :
    (Nat.toDigits 10 k ++ rest).takeWhile Char.isDigit = Nat.toDigits 10 k := by
  have hdigits : ∀ c ∈ Nat.toDigits 10 k, c.isDigit = true := fun c hc =>
    Nat.isDigit_of_mem_toDigits (by decide) (by decide) hc
  rw [List.takeWhile_append_of_pos hdigits]
  cases rest with
  | nil => simp
  | cons c rest => simp [hrest c (by simp)]

/-- Only the digits of zero start with a zero. -/
theorem head_digits (hk : 0 < k) : (Nat.toDigits 10 k).head? ≠ some '0' := by
  induction k using Nat.strongRecOn with
  | ind k ih =>
  rw [Nat.toDigits_eq_if (by decide)]
  split
  · simpa using Nat.ne_of_gt hk
  · have hhead : (Nat.toDigits 10 (k / 10) ++ [(k % 10).digitChar]).head? = (Nat.toDigits 10 (k / 10)).head? := by
      cases hdigits : Nat.toDigits 10 (k / 10) with
      | nil => exact absurd hdigits Nat.toDigits_ne_nil
      | cons => rfl
    rw [hhead]
    exact ih (k / 10) (by omega) (by omega)

/-- The value of a whole number with a point and a zero behind it. -/
theorem written_whole (negative : Bool) (hk : k < 2 ^ 53) (hsteady : Steady k) :
    Written.value ⟨negative, Nat.toDigits 10 k, some ['0'], none⟩ =
      .ok (.real (if negative then (Number.ofNat k).neg else Number.ofNat k)) := by
  have hlimit : significandLimit = 2 ^ 64 - 1 := rfl
  have hwhole : absorb 0 (Nat.toDigits 10 k) = (k, (Nat.toDigits 10 k).length) := by
    rw [absorb_eq (by rw [Nat.ofDigitChars_ten_toDigits]; omega), Nat.ofDigitChars_ten_toDigits]
  have hplace : absorb k ['0'] = (k * 10, 1) := by
    rw [absorb_eq (by simp [Nat.ofDigitChars_cons]; omega)]
    simp [Nat.ofDigitChars_cons, Nat.mul_comm]
  have hscale : scaleByTen 8 (Number.ofNat (k * 10)) (-1) = .ok (Number.ofNat k) := by
    rw [← show divMagnitude (Number.ofNat (k * 10)) (Number.ofNat 10) = Number.ofNat k from hsteady]
    rfl
  simp only [Written.value, hwhole, Option.isNone_some, Bool.false_eq_true, false_and, and_false, if_false,
    Option.getD_some, hplace, Nat.sub_self]
  change (scaleByTen 8 (Number.ofNat (k * 10)) (-1)).map _ = _
  rw [hscale]
  rfl

/-- A whole number with a point and a zero behind it is read as that number. -/
theorem readNumeral_whole (negative : Bool) (hk : k < 2 ^ 53) (hsteady : Steady k) (hrest : Follows rest) :
    readNumeral negative (Nat.toDigits 10 k ++ '.' :: '0' :: rest) =
      (.number (.ok (.real (if negative then (Number.ofNat k).neg else Number.ofNat k))), some rest) := by
  have hdigits := takeWhile_digits k ('.' :: '0' :: rest) (by simp)
  have hdrop : (Nat.toDigits 10 k ++ '.' :: '0' :: rest).drop (Nat.toDigits 10 k).length = '.' :: '0' :: rest :=
    List.drop_left
  have hempty : (Nat.toDigits 10 k).isEmpty = false := by simp
  have hzero : ¬ ((Nat.toDigits 10 k).head? = some '0' ∧ 1 < (Nat.toDigits 10 k).length) := by
    rintro ⟨hhead, hlength⟩
    rcases Nat.eq_zero_or_pos k with rfl | hpos
    · simp at hlength
    · exact head_digits hpos hhead
  have hfraction : ('0' :: rest).takeWhile Char.isDigit = ['0'] := by
    have h := takeWhile_digits 0 rest fun c hc => (hrest c hc).1
    simpa using h
  rw [readNumeral, hdigits]
  simp only [hempty, hdrop, Bool.false_eq_true, if_false, if_neg hzero, hfraction, List.isEmpty_cons, List.length_singleton,
    List.drop_succ_cons, List.drop_zero, written_whole negative hk hsteady]
  cases rest with
  | nil => rfl
  | cons c rest =>
    obtain ⟨-, he, hE⟩ := hrest c (by simp)
    simp [he, hE]

/-- The characters of a whole number. -/
theorem toList_toDocument {n : Number} (h : n.IsWholeOf k) :
    n.toDocument.toList = (if n.isNegative then ['-'] else []) ++ Nat.toDigits 10 k ++ ['.', '0'] := by
  rw [h.toDocument_eq, String.toList_append, String.toList_append, signText, digitsText, String.toList_ofList]
  split <;> rfl

theorem isSpace_digit {c : Char} (hc : c.isDigit = true) : isSpace c = false := by
  simp only [isSpace, Bool.or_eq_false_iff, decide_eq_false_iff_not]
  refine ⟨⟨⟨?_, ?_⟩, ?_⟩, ?_⟩ <;> rintro rfl <;> exact absurd hc (by decide)

/-- The written form of a whole number starts with a sign or a digit. -/
theorem toDocument_head {n : Number} (h : n.IsWholeOf k) :
    ∃ c cs, n.toDocument.toList = c :: cs ∧ (c = '-' ∨ c.isDigit = true) := by
  rw [toList_toDocument h]
  cases n.isNegative with
  | true => exact ⟨_, _, rfl, .inl rfl⟩
  | false =>
      cases hdigits : Nat.toDigits 10 k with
      | nil => exact absurd hdigits Nat.toDigits_ne_nil
      | cons c cs =>
          have hc : c ∈ Nat.toDigits 10 k := hdigits ▸ List.mem_cons_self
          exact ⟨_, _, rfl, .inr (Nat.isDigit_of_mem_toDigits (by decide) (by decide) hc)⟩

/-- A digit starts a numeral. -/
theorem readValue_digit {c : Char} (hc : c.isDigit = true) (fuel : Nat) (cs : List Char) :
    readValue (fuel + 1) (c :: cs) = readNumeral false (c :: cs) := by
  rw [readValue, skipSpace, List.dropWhile_cons_of_neg (by simp [isSpace_digit hc])]
  split <;> simp_all

/-- A whole number is read as it has been written. -/
theorem readValue_whole {n : Number} (h : n.IsWholeOf k) (hsteady : Steady k) (hrest : Follows rest) (fuel : Nat) :
    readValue (fuel + 1) (n.toDocument.toList ++ rest) = (.number (.ok (.real n)), some rest) := by
  have hread := readNumeral_whole n.isNegative h.lt hsteady hrest
  rw [← h.eq_ofNat] at hread
  rw [toList_toDocument h, List.append_assoc, List.append_assoc]
  cases hsign : n.isNegative with
  | true =>
      rw [hsign] at hread
      exact hread
  | false =>
      rw [hsign] at hread
      rw [← hread]
      cases hdigits : Nat.toDigits 10 k with
      | nil => exact absurd hdigits Nat.toDigits_ne_nil
      | cons c cs =>
          have hc : c ∈ Nat.toDigits 10 k := hdigits ▸ List.mem_cons_self
          exact readValue_digit (Nat.isDigit_of_mem_toDigits (by decide) (by decide) hc) fuel _

end Parlance.Json
