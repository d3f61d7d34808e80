import HygienicScheme.Proofs.Numbers.Fitting

/-!
# Powers of integers

A power is computed by squaring the base over and over, and every product on the way must fit. That
refuses no power that fits: a square that is still needed does not exceed the power, and no square
is the magnitude of the least integer. But exponents from 2 ^ 32 on are refused for every base,
those whose powers stay small among them.
-/
namespace HygienicScheme

namespace Number

variable {a b : Int64} {n k : Int} {e : Nat}

theorem not_fits_of_natAbs (h : 2 ^ 63 < n.natAbs) : ¬ Fits n := by
  rw [fits_iff]
  omega

theorem not_fits_mul (h : ¬ Fits n) (hk : 0 < k) : ¬ Fits (n * k) := by
  rw [fits_iff] at h ⊢
  by_cases hn : 0 ≤ n
  · have hle : n * 1 ≤ n * k := Int.mul_le_mul_of_nonneg_left (by omega) hn
    omega
  · have hle : n * k ≤ n * 1 := Int.mul_le_mul_of_nonpos_left (by omega) (by omega)
    omega

theorem square_of_not_fits (h : ¬ Fits (n * n)) : 2 ^ 63 < n.natAbs * n.natAbs := by
  rw [fits_iff, ← Int.natAbs_mul_self] at h
  -- The root of 2 ^ 63 is no integer.
  have hroot : 3037000500 ≤ n.natAbs := by
    by_contra hsmall
    have hle : n.natAbs ≤ 3037000499 := by omega
    have hsquare := Nat.mul_le_mul hle hle
    omega
  have hsquare := Nat.mul_le_mul hroot hroot
  omega

theorem square_pos_of_not_fits (h : ¬ Fits (n * n)) : 0 < n * n := by
  rw [fits_iff] at h
  have hnonneg := mul_self_nonneg n
  omega

theorem not_fits_square_pow (h : ¬ Fits (n * n)) (hk : k ≠ 0) (he : e ≠ 0) :
    ¬ Fits (k * (n * n) ^ e) := by
  apply not_fits_of_natAbs
  obtain ⟨e, rfl⟩ := Nat.exists_eq_succ_of_ne_zero he
  have hfactor : 0 < (k * (n * n) ^ e).natAbs := by
    have hpos := square_pos_of_not_fits h
    exact Int.natAbs_pos.mpr (Int.mul_ne_zero hk (pow_pos hpos e).ne')
  have hsplit : k * (n * n) ^ e.succ = k * (n * n) ^ e * (n * n) := by
    rw [Nat.succ_eq_add_one, pow_succ, mul_assoc]
  rw [hsplit, Int.natAbs_mul, Int.natAbs_mul n n]
  exact Nat.lt_of_lt_of_le (square_of_not_fits h) (Nat.le_mul_of_pos_left _ hfactor)

theorem pow_halves (n : Int) (e : Nat) : n ^ e = n ^ (e % 2) * (n * n) ^ (e / 2) := by
  rw [← pow_two, ← pow_mul, ← pow_add, Nat.mod_add_div]

/-! ## Repeated squaring -/

theorem timesPower?_step (hzero : e ≠ 0) (hone : e ≠ 1) : timesPower? a b e =
    (Decimal.whole? (a.toInt * b.toInt ^ (e % 2))).bind fun product =>
      (Decimal.whole? (b.toInt * b.toInt)).bind fun square =>
        timesPower? product square (e / 2) := by
  rw [timesPower?, if_neg hzero, if_neg hone]
  obtain heven | hodd := Nat.mod_two_eq_zero_or_one e
  · rw [heven, pow_zero, mul_one, whole?_eq_some.mpr rfl]
    rfl
  · rw [hodd, pow_one]
    rfl

theorem ne_zero_of_not_fits (h : ¬ Fits (a.toInt * b.toInt ^ (e % 2))) : b.toInt ≠ 0 := by
  intro hb
  obtain heven | hodd := Nat.mod_two_eq_zero_or_one e
  · rw [heven, pow_zero, mul_one] at h
    exact h (fits_toInt a)
  · rw [hodd, hb, pow_one, mul_zero] at h
    exact h (by decide)

/-- All products on the way fit if the power does. The product is never zero unless the base is, so
what is still to be multiplied makes nothing smaller. -/
theorem timesPower?_eq (h : a.toInt ≠ 0 ∨ b.toInt = 0) :
    timesPower? a b e = Decimal.whole? (a.toInt * b.toInt ^ e) := by
  induction e using Nat.strong_induction_on generalizing a b with
  | _ e ih =>
    by_cases hzero : e = 0
    · rw [timesPower?, if_pos hzero, hzero, pow_zero, mul_one, whole?_eq_some.mpr rfl]
    by_cases hone : e = 1
    · rw [timesPower?, if_neg hzero, if_pos hone, hone, pow_one, times?]
    have hhalf : e / 2 ≠ 0 := by omega
    rw [timesPower?_step hzero hone, pow_halves b.toInt e, ← mul_assoc]
    cases hproduct : Decimal.whole? (a.toInt * b.toInt ^ (e % 2)) with
    | none =>
      -- What is left is a positive factor, since the base is not zero.
      have hover := whole?_eq_none.mp hproduct
      have hpos := mul_self_pos.mpr (ne_zero_of_not_fits hover)
      exact (whole?_eq_none.mpr (not_fits_mul hover (pow_pos hpos _))).symm
    | some product =>
      have hp := whole?_eq_some.mp hproduct
      have hnext : product.toInt ≠ 0 ∨ b.toInt = 0 := by
        by_cases hb : b.toInt = 0
        · exact .inr hb
        · rw [hp]
          exact .inl (mul_ne_zero (h.resolve_right hb) (pow_ne_zero _ hb))
      rw [← hp]
      cases hsquare : Decimal.whole? (b.toInt * b.toInt) with
      | none =>
        -- The square is still a factor of the power, because there is a round to come.
        have hover := whole?_eq_none.mp hsquare
        have hbase := mul_self_pos.mp (square_pos_of_not_fits hover)
        have hnonzero := hnext.resolve_right hbase
        exact (whole?_eq_none.mpr (not_fits_square_pow hover hnonzero hhalf)).symm
      | some square =>
        have hs := whole?_eq_some.mp hsquare
        rw [← hs]
        exact ih (e / 2) (by omega) (hnext.imp_right fun hb => by rw [hs, hb, mul_zero])

theorem power?_eq (h : e ≤ maxExponent) : power? b e = Decimal.whole? (b.toInt ^ e) := by
  have hone : (1 : Int64).toInt = 1 := rfl
  rw [power?, if_neg (Nat.not_lt.mpr h), timesPower?_eq (.inl (by decide)), hone, one_mul]

/-! ## Great exponents -/

theorem not_fits_pow (hb : 2 ≤ n.natAbs) (he : 64 ≤ e) : ¬ Fits (n ^ e) := by
  apply not_fits_of_natAbs
  rw [Int.natAbs_pow]
  calc 2 ^ 63 < 2 ^ 64 := by decide
    _ ≤ 2 ^ e := Nat.pow_le_pow_right (by decide) he
    _ ≤ n.natAbs ^ e := Nat.pow_le_pow_left hb e

theorem fits_pow (hb : n.natAbs ≤ 1) : Fits (n ^ e) := by
  have hpow : (n ^ e).natAbs ≤ 1 := by
    rw [Int.natAbs_pow]
    exact pow_le_one₀ (Nat.zero_le _) hb
  rw [fits_iff]
  omega

theorem maxExponent_eq : maxExponent = 2 ^ 32 - 1 := rfl

/-- Every power is exact or refused where it does not fit, but for small bases with great
exponents. -/
theorem power?_exact (h : ¬ (2 ^ 32 ≤ e ∧ b.toInt.natAbs ≤ 1)) :
    power? b e = Decimal.whole? (b.toInt ^ e) := by
  by_cases he : e ≤ maxExponent
  · exact power?_eq he
  · rw [maxExponent_eq] at he
    rw [whole?_eq_none.mpr (not_fits_pow (by omega) (by omega)), power?, maxExponent_eq,
      if_pos (by omega)]

theorem power?_great (he : 2 ^ 32 ≤ e) : power? b e = none := by
  rw [power?, maxExponent_eq, if_pos (by omega)]

end Number

namespace Routine

open Number (Fits)

variable {b e : Int64}

theorem calculates_expt :
    Calculates .expt [.int b, .int e] (Number.expt (.int b) (.int e)) := ⟨rfl, rfl⟩

/-- How the power of two integers comes out. -/
structure RaisesExactly (b e : Int64) (s : Store) : Prop where
  computes : ¬ (2 ^ 32 ≤ e.toInt ∧ b.toInt.natAbs ≤ 1) →
    Computes (.numeric .expt) [.int b, .int e] s "expt" (b.toInt ^ e.toInt.toNat)
  /-- The powers of zero, one and minus one fit, and are refused for great exponents. -/
  refused : 2 ^ 32 ≤ e.toInt → b.toInt.natAbs ≤ 1 → Fits (b.toInt ^ e.toInt.toNat) ∧
    Fails (.numeric .expt) [.int b, .int e] s (.overflow "expt")

theorem raises_exactly (b e : Int64) (s : Store) (he : 0 ≤ e.toInt) : RaisesExactly b e s where
  computes h := by
    refine calculates_expt.computes ?_
    rw [Number.expt, if_pos he, Number.power?_exact (by omega), Number.fit]
    cases Decimal.whole? (b.toInt ^ e.toInt.toNat) <;> rfl
  refused hgreat hb := by
    refine ⟨Number.fits_pow hb, calculates_expt.error ?_⟩
    rw [Number.expt, if_pos he, Number.power?_great (by omega)]

/-- The least integer is given back as a power; one to the power 2 ^ 32 is refused. -/
theorem raises_exactly_least :
    (∃ m : Int64, m.toInt = -2 ^ 63 ∧
      Returns (.numeric .expt) [.int (-2), .int 63] .empty (.int m) .empty) ∧
    Fails (.numeric .expt) [.int 1, .int 4294967296] .empty (.overflow "expt") := by
  constructor
  · exact ((raises_exactly (-2) 63 .empty (by decide)).computes (by decide)).fits (by decide)
  · exact ((raises_exactly 1 4294967296 .empty (by decide)).refused (by decide) (by decide)).2

end Routine

end HygienicScheme
