import Mathlib.Algebra.Group.Nat.Defs
import Mathlib.Data.Nat.Log
import Parlance.Number.Rounding

/-! Ratios that are doubles already. Rounding such a ratio changes nothing, so whatever is computed from doubles is
exact wherever the result is a double; multiples of a power of two with few enough digits are. -/

namespace Parlance.Number

variable {n : Number}

/-- The bits below the sign are those of the significand in its binade. -/
theorem magnitudeBits_eq (n : Number) : n.magnitudeBits = n.scale * 2 ^ 52 + n.significand := by
  have hfields : n.magnitudeBits = n.exponentField * 2 ^ 52 + n.fractionField := by
    rw [exponentField, fractionField]
    exact (Nat.div_add_mod' _ _).symm
  rw [hfields, scale, significand]
  change _ = _ + (if n.exponentField = 0 then n.fractionField else 2 ^ 52 + n.fractionField)
  split <;> omega

theorem significand_lt (n : Number) : n.significand < 2 ^ 53 := by
  have hfraction : n.fractionField < 2 ^ 52 := Nat.mod_lt _ (by decide)
  rw [significand]
  change (if n.exponentField = 0 then n.fractionField else 2 ^ 52 + n.fractionField) < _
  split <;> omega

/-- Only the smallest doubles have a significand without its leading bit. -/
theorem le_significand (hscale : 0 < n.scale) : 2 ^ 52 ≤ n.significand := by
  rw [scale] at hscale
  rw [significand, if_neg (by omega)]
  exact Nat.le_add_right _ _

theorem units_eq (n : Number) : n.units = n.significand * 2 ^ n.scale := rfl

/-- The binade of a double can be read off its value. -/
theorem log2_units (n : Number) : n.units.log2 - 52 = n.scale := by
  have hlt := n.significand_lt
  by_cases hzero : n.units = 0
  · by_contra hne
    have hscale : 0 < n.scale := by
      rw [hzero] at hne
      simpa using Nat.pos_of_ne_zero (Ne.symm hne)
    have hle := le_significand hscale
    rw [units_eq] at hzero
    have hpow : 0 < 2 ^ n.scale := Nat.two_pow_pos _
    rcases Nat.mul_eq_zero.mp hzero with hsig | hpow' <;> omega
  have hupper : n.units.log2 < 53 + n.scale := by
    rw [Nat.log2_lt hzero, units_eq, Nat.pow_add]
    exact Nat.mul_lt_mul_of_pos_right hlt (Nat.two_pow_pos _)
  rcases Nat.eq_zero_or_pos n.scale with hscale | hscale
  · omega
  · have hlower : 52 + n.scale ≤ n.units.log2 := by
      rw [Nat.le_log2 hzero, units_eq, Nat.pow_add]
      exact Nat.mul_le_mul_right _ (le_significand hscale)
    omega

theorem roundDiv_mul {d : Nat} (hd : 0 < d) (k : Nat) : roundDiv (k * d) d = k := by
  rw [roundDiv, Nat.mul_mod_left, if_pos (by omega), Nat.mul_div_cancel _ hd]

/-- A ratio that is the magnitude of a double is rounded to it. -/
theorem roundRatio_exact {num den : Nat} (hfinite : n.isFinite = true) (hden : 0 < den)
    (hvalue : num * Nat.pow 2 granularity = n.units * den) : roundRatio num den = n.magnitudeBits := by
  have hbits : n.magnitudeBits < infiniteBits := of_decide_eq_true hfinite
  have hquotient : num * Nat.pow 2 granularity / den = n.units := by
    rw [hvalue, Nat.mul_div_cancel _ hden]
  have hproduct : num * Nat.pow 2 granularity = n.significand * (den * Nat.pow 2 n.scale) := by
    rw [hvalue, Nat.mul_comm den, ← Nat.mul_assoc]
    rfl
  have hround : roundDiv (num * Nat.pow 2 granularity) (den * Nat.pow 2 n.scale) = n.significand := by
    rw [hproduct]
    exact roundDiv_mul (Nat.mul_pos hden (Nat.two_pow_pos _)) _
  rw [roundRatio, hquotient, log2_units, hround]
  rw [show n.scale * Nat.pow 2 52 + n.significand = n.magnitudeBits from n.magnitudeBits_eq.symm]
  exact Nat.min_eq_right (Nat.le_of_lt hbits)

theorem toNat_ofMagnitudeBits (negative : Bool) {magnitude : Nat} (hmagnitude : magnitude < 2 ^ 63) :
    (ofMagnitudeBits negative magnitude).bits.toNat = (if negative then 2 ^ 63 else 0) + magnitude := by
  change (UInt64.ofNat ((if negative then 2 ^ 63 else 0) + magnitude)).toNat = _
  refine UInt64.toNat_ofNat_of_lt' ?_
  change _ < 2 ^ 64
  split <;> omega

theorem magnitudeBits_ofMagnitudeBits (negative : Bool) {magnitude : Nat} (hmagnitude : magnitude < 2 ^ 63) :
    (ofMagnitudeBits negative magnitude).magnitudeBits = magnitude := by
  rw [magnitudeBits, toNat_ofMagnitudeBits negative hmagnitude]
  change _ % 2 ^ 63 = _
  split <;> omega

theorem isNegative_ofMagnitudeBits (negative : Bool) {magnitude : Nat} (hmagnitude : magnitude < 2 ^ 63) :
    (ofMagnitudeBits negative magnitude).isNegative = negative := by
  rw [isNegative, toNat_ofMagnitudeBits negative hmagnitude]
  cases negative
  · exact decide_eq_false (by simpa using hmagnitude)
  · exact decide_eq_true (by simp)

/-- A double is given by its sign and the bits below it. -/
theorem ofMagnitudeBits_self (n : Number) : ofMagnitudeBits n.isNegative n.magnitudeBits = n := by
  obtain ⟨bits⟩ := n
  rw [ofMagnitudeBits, isNegative, magnitudeBits]
  change Number.mk (.ofNat ((if decide (2 ^ 63 ≤ bits.toNat) = true then 2 ^ 63 else 0) + bits.toNat % 2 ^ 63)) = _
  have hlt := bits.toNat_lt
  have hsum : (if decide (2 ^ 63 ≤ bits.toNat) = true then 2 ^ 63 else 0) + bits.toNat % 2 ^ 63 = bits.toNat := by
    split
    next h =>
      have hle := of_decide_eq_true h
      omega
    next h =>
      have hle : ¬ 2 ^ 63 ≤ bits.toNat := fun hle => h (decide_eq_true hle)
      omega
  rw [hsum, UInt64.ofNat_toNat]

theorem ofRatio_exact {num den : Nat} (hfinite : n.isFinite = true) (hden : 0 < den)
    (hvalue : num * Nat.pow 2 granularity = n.units * den) : ofRatio n.isNegative num den = n := by
  rw [ofRatio, roundRatio_exact hfinite hden hvalue, ofMagnitudeBits_self]

/-- What the fields of a double are when its significand and its binade are given. -/
theorem fields_ofMagnitudeBits (significand scale : Nat) (hlt : significand < 2 ^ 53)
    (hle : 0 < scale → 2 ^ 52 ≤ significand) (hscale : scale ≤ 2044) :
    let n := ofMagnitudeBits false (scale * 2 ^ 52 + significand)
    n.isFinite = true ∧ n.isNegative = false ∧ n.units = significand * 2 ^ scale := by
  intro n
  have hbound : scale * 2 ^ 52 + significand < 2 ^ 63 := by omega
  have hmagnitude : n.magnitudeBits = scale * 2 ^ 52 + significand := magnitudeBits_ofMagnitudeBits false hbound
  have hfields : n.scale = scale ∧ n.significand = significand := by
    have heq := n.magnitudeBits_eq
    have hlt' := n.significand_lt
    have hle' : 0 < n.scale → 2 ^ 52 ≤ n.significand := le_significand
    rw [hmagnitude] at heq
    omega
  refine ⟨decide_eq_true ?_, isNegative_ofMagnitudeBits false hbound, ?_⟩
  · rw [hmagnitude]
    change _ < 2047 * 2 ^ 52
    omega
  · rw [units_eq, hfields.1, hfields.2]

/-- Every product of fewer than fifty-four bits and a power of two that is not too large is a double. -/
theorem exists_units {m t : Nat} (hm : m < 2 ^ 53) (ht : t ≤ 2044) :
    ∃ n : Number, n.isFinite = true ∧ n.isNegative = false ∧ n.units = m * Nat.pow 2 t := by
  rcases Nat.eq_zero_or_pos m with rfl | hpos
  · exact ⟨_, by simpa using fields_ofMagnitudeBits 0 0 (by decide) nofun (by decide)⟩
  have hlog : m.log2 < 53 := (Nat.log2_lt (Nat.ne_of_gt hpos)).mpr hm
  have hself : m < 2 ^ (m.log2 + 1) := Nat.lt_log2_self
  have hpow : 2 ^ m.log2 ≤ m := Nat.log2_self_le (Nat.ne_of_gt hpos)
  by_cases hsmall : t < 52 - m.log2
  · have hlt : m * 2 ^ t < 2 ^ 53 := by
      calc m * 2 ^ t < 2 ^ (m.log2 + 1) * 2 ^ t := Nat.mul_lt_mul_of_pos_right hself (Nat.two_pow_pos _)
        _ = 2 ^ (m.log2 + 1 + t) := (Nat.pow_add 2 _ _).symm
        _ ≤ 2 ^ 53 := Nat.pow_le_pow_right (by decide) (by omega)
    have hfields := fields_ofMagnitudeBits _ 0 hlt (by simp) (by decide)
    exact ⟨_, by simpa using hfields⟩
  · have hshift : t = (t - (52 - m.log2)) + (52 - m.log2) := by omega
    have hlt : m * 2 ^ (52 - m.log2) < 2 ^ 53 := by
      calc m * 2 ^ (52 - m.log2) < 2 ^ (m.log2 + 1) * 2 ^ (52 - m.log2) :=
            Nat.mul_lt_mul_of_pos_right hself (Nat.two_pow_pos _)
        _ = 2 ^ 53 := by rw [← Nat.pow_add]; congr 1; omega
    have hle : 2 ^ 52 ≤ m * 2 ^ (52 - m.log2) := by
      calc 2 ^ 52 = 2 ^ m.log2 * 2 ^ (52 - m.log2) := by rw [← Nat.pow_add]; congr 1; omega
        _ ≤ m * 2 ^ (52 - m.log2) := Nat.mul_le_mul_right _ hpow
    obtain ⟨hfinite, hsign, hunits⟩ := fields_ofMagnitudeBits _ (t - (52 - m.log2)) hlt (fun _ => hle) (by omega)
    refine ⟨_, hfinite, hsign, hunits.trans ?_⟩
    change _ = m * 2 ^ t
    rw [Nat.mul_assoc, ← Nat.pow_add, Nat.add_comm, ← hshift]

end Parlance.Number
