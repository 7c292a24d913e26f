import Parlance.Number.Layout
import Parlance.Proofs.Number.Exact

/-! Whole numbers of fewer than fifty-four bits. The doubles next to such a number are no further away than the next
whole numbers, so the fewest digits that read back as it are its own, and its document form is its digits with a point
and a zero behind them. -/

namespace Parlance.Number

/-- A double with a whole magnitude of fewer than fifty-four bits. -/
structure IsWholeOf (n : Number) (k : Nat) : Prop where
  finite : n.isFinite = true
  units : n.units = k * Nat.pow 2 granularity
  lt : k < 2 ^ 53

variable {n : Number} {k : Nat}

theorem two_pow_pos (e : Nat) : 0 < Nat.pow 2 e := Nat.two_pow_pos e

theorem two_pow_le {e e' : Nat} (h : e ≤ e') : Nat.pow 2 e ≤ Nat.pow 2 e' := Nat.pow_le_pow_right (by decide) h

theorem two_pow_succ (e : Nat) : Nat.pow 2 (e + 1) = 2 * Nat.pow 2 e := Nat.pow_succ'

/-- The larger the last digits of a significand, the fewer of them are in a small value. -/
theorem scale_le_of_lt {significand scale g : Nat} (hle : 0 < scale → 2 ^ 52 ≤ significand) (hk : k < 2 ^ 53)
    (hvalue : significand * Nat.pow 2 scale = k * Nat.pow 2 g) : scale ≤ g := by
  refine Nat.le_of_not_lt fun hlt => ?_
  have hbig : 2 ^ 53 * 2 ^ g ≤ significand * 2 ^ scale := by
    calc 2 ^ 53 * 2 ^ g = 2 ^ 52 * 2 ^ (g + 1) := by omega
      _ ≤ significand * 2 ^ scale :=
        Nat.mul_le_mul (hle (Nat.zero_lt_of_lt hlt)) (Nat.pow_le_pow_right (by decide) hlt)
  have hsmall : significand * 2 ^ scale < 2 ^ 53 * 2 ^ g :=
    lt_of_eq_of_lt hvalue (Nat.mul_lt_mul_of_pos_right hk (Nat.two_pow_pos g))
  omega

namespace IsWholeOf

/-- The double of a whole number with few enough bits is exact. -/
theorem ofNat (hk : k < 2 ^ 53) : (Number.ofNat k).IsWholeOf k ∧ (Number.ofNat k).isNegative = false := by
  obtain ⟨n, hfinite, hsign, hunits⟩ := exists_units hk (t := granularity) (by decide)
  have hself : Number.ofNat k = n := by
    rw [Number.ofNat, ← hsign]
    exact ofRatio_exact hfinite Nat.one_pos (by rw [hunits, Nat.mul_one])
  rw [hself]
  exact ⟨⟨hfinite, hunits, hk⟩, hsign⟩

/-- It is the only one of its sign. -/
theorem eq_ofNat (h : n.IsWholeOf k) : n = if n.isNegative then (Number.ofNat k).neg else Number.ofNat k := by
  have hbits : (Number.ofNat k).magnitudeBits = n.magnitudeBits := by
    rw [← roundRatio_exact (ofNat h.lt).1.finite Nat.one_pos (by rw [(ofNat h.lt).1.units, Nat.mul_one]),
      roundRatio_exact h.finite Nat.one_pos (by rw [h.units, Nat.mul_one])]
  have hself := n.ofMagnitudeBits_self
  split
  next hsign =>
    rw [neg, (ofNat h.lt).2, hbits]
    rw [hsign] at hself
    exact hself.symm
  next hsign =>
    have hother := ofMagnitudeBits_self (Number.ofNat k)
    rw [(ofNat h.lt).2, hbits] at hother
    rw [Bool.not_eq_true] at hsign
    rw [hsign] at hself
    exact hself.symm.trans hother

theorem scale_le (h : n.IsWholeOf k) : Nat.pow 2 n.scale ≤ Nat.pow 2 granularity :=
  two_pow_le (scale_le_of_lt le_significand h.lt h.units)

section Interval

theorem value_eq (h : n.IsWholeOf k) : n.readBack.value = k * n.readBack.unit := by
  have hunits : n.significand * Nat.pow 2 n.scale = k * Nat.pow 2 granularity := h.units
  change 4 * n.significand * Nat.pow 2 n.scale = k * (4 * Nat.pow 2 granularity)
  rw [Nat.mul_assoc, hunits, Nat.mul_left_comm]

theorem unit_pos (n : Number) : 0 < n.readBack.unit := Nat.mul_pos (by decide) (two_pow_pos granularity)

/-- The only whole number that reads back as a whole number is that number. -/
theorem contains_iff (h : n.IsWholeOf k) (hk : 0 < k) (m : Nat) : n.readBack.contains m 1 = true ↔ m = k := by
  have hvalue := h.value_eq
  have hunit := unit_pos n
  have hstep := two_pow_pos n.scale
  have hnear : 2 * Nat.pow 2 n.scale < n.readBack.unit := by
    have hle := h.scale_le
    change _ < 4 * Nat.pow 2 granularity
    omega
  have hsig : 0 < n.significand := by
    refine Nat.pos_of_ne_zero fun hzero => ?_
    have hunits := h.units
    rw [units_eq, hzero, Nat.zero_mul] at hunits
    exact Nat.ne_of_gt (Nat.mul_pos hk (two_pow_pos granularity)) hunits.symm
  have hhigh : n.readBack.high = n.readBack.value + 2 * Nat.pow 2 n.scale := Nat.add_mul _ _ _
  have hlow : n.readBack.low < n.readBack.value ∧ n.readBack.value ≤ n.readBack.low + 2 * Nat.pow 2 n.scale := by
    change (4 * n.significand - _) * Nat.pow 2 n.scale < 4 * n.significand * Nat.pow 2 n.scale ∧
      4 * n.significand * Nat.pow 2 n.scale ≤ (4 * n.significand - _) * Nat.pow 2 n.scale + 2 * Nat.pow 2 n.scale
    rw [← Nat.add_mul]
    refine ⟨Nat.mul_lt_mul_of_pos_right ?_ hstep, Nat.mul_le_mul_right _ ?_⟩ <;> split <;> omega
  rw [hvalue] at hlow hhigh
  have hiff : n.readBack.low * 1 ≤ m * n.readBack.unit ∧ m * n.readBack.unit ≤ n.readBack.high * 1 ↔ m = k := by
    refine ⟨fun ⟨hle, hge⟩ => Nat.le_antisymm ?_ ?_, ?_⟩
    · refine Nat.le_of_lt_succ (Nat.lt_of_mul_lt_mul_right (a := n.readBack.unit) ?_)
      rw [Nat.succ_mul]
      omega
    · refine Nat.le_of_lt_succ (Nat.lt_of_mul_lt_mul_right (a := n.readBack.unit) ?_)
      rw [Nat.succ_mul]
      omega
    · rintro rfl
      omega
  rw [ReadBack.contains]
  split
  · rw [Bool.and_eq_true, decide_eq_true_eq, decide_eq_true_eq]
    exact hiff
  · rw [Bool.and_eq_true, decide_eq_true_eq, decide_eq_true_eq]
    refine ⟨fun ⟨hlt, hgt⟩ => hiff.mp ⟨Nat.le_of_lt hlt, Nat.le_of_lt hgt⟩, ?_⟩
    rintro rfl
    omega

/-- On the grid of a power of ten stands the number itself or nothing. -/
theorem onGrid_eq (h : n.IsWholeOf k) (hk : 0 < k) (e : Nat) :
    n.readBack.onGrid? .even e = if 10 ^ e ∣ k then some ⟨k / 10 ^ e, e⟩ else none := by
  have hten : tenRatio e = (10 ^ e, 1) := by
    rw [tenRatio, if_pos (Int.natCast_nonneg e)]
    rfl
  have hbelow : n.readBack.value * 1 / (n.readBack.unit * 10 ^ e) = k / 10 ^ e := by
    rw [Nat.mul_one, h.value_eq, Nat.mul_comm k, Nat.mul_div_mul_left _ _ (unit_pos n)]
  have habove : n.readBack.contains ((k / 10 ^ e + 1) * 10 ^ e) 1 = false := by
    rw [Bool.eq_false_iff, ne_eq, h.contains_iff hk]
    exact Nat.ne_of_gt (Nat.lt_mul_of_div_lt (Nat.lt_succ_self _) (Nat.pow_pos (by decide)))
  rw [ReadBack.onGrid?, hten]
  dsimp only
  rw [hbelow, habove]
  by_cases hdvd : 10 ^ e ∣ k
  · have hown : n.readBack.contains (k / 10 ^ e * 10 ^ e) 1 = true :=
      (h.contains_iff hk _).mpr (Nat.div_mul_cancel hdvd)
    rw [hown, if_pos hdvd]
  · have hown : n.readBack.contains (k / 10 ^ e * 10 ^ e) 1 = false := by
      rw [Bool.eq_false_iff, ne_eq, h.contains_iff hk]
      exact fun heq => hdvd ⟨_, by rw [Nat.mul_comm]; exact heq.symm⟩
    rw [hown, if_neg hdvd]

/-- The search stops at the highest power of ten that divides the number. -/
theorem search_eq (h : n.IsWholeOf k) (hk : 0 < k) : ∀ (tries e : Nat), e < tries →
    ∃ j : Nat, j ≤ e ∧ 10 ^ j ∣ k ∧ (∀ i, j < i → i ≤ e → ¬ 10 ^ i ∣ k) ∧
      n.readBack.search .even tries e = ⟨k / 10 ^ j, j⟩ := by
  intro tries
  induction tries with
  | zero => intro e he; omega
  | succ tries ih =>
      intro e he
      by_cases hdvd : 10 ^ e ∣ k
      · refine ⟨e, Nat.le_refl e, hdvd, fun i hi hle => by omega, ?_⟩
        rw [ReadBack.search, h.onGrid_eq hk, if_pos hdvd]
        rfl
      · cases e with
        | zero => exact absurd ⟨k, by simp⟩ hdvd
        | succ e =>
            obtain ⟨j, hj, hown, hlast, hsearch⟩ := ih e (by omega)
            refine ⟨j, by omega, hown, fun i hi hle => ?_, ?_⟩
            · rcases Nat.lt_or_ge e i with hlt | hge
              · obtain rfl : i = e + 1 := by omega
                exact hdvd
              · exact hlast i hi hge
            · rw [ReadBack.search, h.onGrid_eq hk, if_neg hdvd, Option.getD_none, ← hsearch]
              congr 1
              omega

end Interval

end IsWholeOf

/-- Zeros behind a number are factors of ten. -/
theorem toDigits_mul_pow {m : Nat} (hm : 0 < m) (j : Nat) :
    Nat.toDigits 10 (m * 10 ^ j) = Nat.toDigits 10 m ++ List.replicate j '0' := by
  induction j with
  | zero => simp
  | succ j ih =>
      have hpos : 0 < m * 10 ^ j := Nat.mul_pos hm (Nat.pow_pos (by decide))
      rw [Nat.pow_succ, ← Nat.mul_assoc, Nat.mul_comm _ 10, ← Nat.add_zero (10 * (m * 10 ^ j)),
        ← Nat.toDigits_append_toDigits (by decide) hpos (by decide), ih, Nat.toDigits_zero, List.append_assoc,
        ← List.replicate_succ']

/-- A whole number has at most sixteen digits. -/
theorem length_toDigits_le (hk : k < 2 ^ 53) : (Nat.toDigits 10 k).length ≤ 16 :=
  (Nat.length_toDigits_le_iff (by decide) (by decide)).mpr (Nat.lt_trans hk (by decide))

/-- The shortest digits of a whole number are its own without the zeros at the end. -/
theorem IsWholeOf.shortest_eq (h : n.IsWholeOf k) (hk : 0 < k) :
    ∃ j : Nat, 10 ^ j ∣ k ∧ n.shortest .even = ⟨k / 10 ^ j, j⟩ := by
  have hunit := unit_pos n
  have hleading : n.readBack.leading + 1 = ((Nat.toDigits 10 k).length : Nat) := by
    have hle : n.readBack.unit ≤ n.readBack.value := by
      rw [h.value_eq]
      exact Nat.le_mul_of_pos_left _ hk
    rw [ReadBack.leading, if_pos hle, h.value_eq, Nat.mul_div_cancel _ hunit]
    omega
  have hlength := length_toDigits_le h.lt
  obtain ⟨j, hj, hdvd, hlast, hsearch⟩ := h.search_eq hk 19 (Nat.toDigits 10 k).length (by omega)
  refine ⟨j, hdvd, ?_⟩
  rw [shortest, hleading, hsearch, Decimal.trim, if_neg]
  rintro ⟨hten, -⟩
  have hnext : 10 ^ (j + 1) ∣ k := by
    rw [Nat.pow_succ]
    exact (Nat.dvd_div_iff_mul_dvd hdvd).mp (Nat.dvd_of_mod_eq_zero hten)
  refine hlast (j + 1) (by omega) ?_ hnext
  -- a higher power of ten is larger than the number
  have hle : 10 ^ (j + 1) ≤ k := Nat.le_of_dvd hk hnext
  have hlt : k < 10 ^ (Nat.toDigits 10 k).length :=
    (Nat.length_toDigits_le_iff (by decide) Nat.length_toDigits_pos).mp (Nat.le_refl _)
  exact Nat.le_of_lt ((Nat.pow_lt_pow_iff_right (by decide)).mp (Nat.lt_of_le_of_lt hle hlt))

/-- The document form of a whole number. -/
theorem IsWholeOf.toDocument_eq (h : n.IsWholeOf k) : n.toDocument = n.signText ++ digitsText k ++ ".0" := by
  have hzero : n.isZero = true ↔ k = 0 := by
    rw [isZero, decide_eq_true_eq, magnitudeBits_eq]
    have hunits : n.significand * Nat.pow 2 n.scale = k * Nat.pow 2 granularity := h.units
    have hscale := two_pow_pos n.scale
    constructor
    · intro hbits
      obtain ⟨-, hsig⟩ := Nat.add_eq_zero_iff.mp hbits
      rw [hsig, Nat.zero_mul] at hunits
      exact (Nat.mul_eq_zero.mp hunits.symm).resolve_right (Nat.ne_of_gt (two_pow_pos granularity))
    · rintro rfl
      rw [Nat.zero_mul] at hunits
      have hsig : n.significand = 0 := (Nat.mul_eq_zero.mp hunits).resolve_right (Nat.ne_of_gt hscale)
      have hsmall : n.scale = 0 := by
        by_contra hne
        have hle := le_significand (Nat.pos_of_ne_zero hne)
        omega
      rw [hsig, hsmall, Nat.zero_mul]
  rw [toDocument, h.finite, Bool.not_true, if_neg (by decide), String.append_assoc]
  congr 1
  rcases Nat.eq_zero_or_pos k with rfl | hk
  · rw [if_pos (hzero.mpr rfl)]
    rfl
  rw [if_neg fun hz => Nat.ne_of_gt hk (hzero.mp hz)]
  obtain ⟨j, hdvd, hshortest⟩ := h.shortest_eq hk
  have hquotient : 0 < k / 10 ^ j := Nat.div_pos (Nat.le_of_dvd hk hdvd) (Nat.pow_pos (by decide))
  have hdigits : Nat.toDigits 10 k = Nat.toDigits 10 (k / 10 ^ j) ++ List.replicate j '0' := by
    rw [← toDigits_mul_pow hquotient, Nat.div_mul_cancel hdvd]
  have hlength := length_toDigits_le h.lt
  rw [hdigits, List.length_append, List.length_replicate] at hlength
  have hpos := Nat.length_toDigits_pos (b := 10) (n := k / 10 ^ j)
  rw [hshortest, Decimal.document]
  dsimp only
  rw [if_neg (by omega), if_pos (by omega), Decimal.positional]
  dsimp only
  rw [if_pos (by omega), Int.toNat_natCast, ← hdigits]
  rfl

end Parlance.Number
