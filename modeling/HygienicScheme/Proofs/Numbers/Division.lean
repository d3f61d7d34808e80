import HygienicScheme.Proofs.Numbers.Fitting

/-!
# Division of integers

Quotients round toward zero, and what a division leaves has the sign of the dividend or, for
`modulo`, of the divisor. Only the quotient of the least integer by minus one does not fit, and no
remainder is taken in that case either.
-/
namespace HygienicScheme

namespace Number

variable {a b : Int64}

theorem toInt_ne_zero (hb : b ≠ 0) : b.toInt ≠ 0 := fun h => hb (Int64.toInt_inj.mp h)

theorem tmod_sign (m : Int) {d : Int} (hd : d ≠ 0) : (m.tmod d).natAbs < d.natAbs ∧
    (0 ≤ m → 0 ≤ m.tmod d) ∧ (m ≤ 0 → m.tmod d ≤ 0) := by
  refine ⟨?_, Int.tmod_nonneg d, fun hm => ?_⟩
  · rw [Int.natAbs_tmod]
    exact Nat.mod_lt _ (by omega)
  · have hneg := Int.tmod_nonneg (a := -m) d (by omega)
    rw [Int.neg_tmod] at hneg
    omega

theorem fmod_sign (m : Int) {d : Int} (hd : d ≠ 0) :
    (0 < d → 0 ≤ m.fmod d ∧ m.fmod d < d) ∧ (d < 0 → d < m.fmod d ∧ m.fmod d ≤ 0) := by
  have hlow := Int.emod_nonneg m hd
  have hhigh := Int.emod_lt m hd
  rw [Int.fmod_eq_emod]
  simp only [Int.dvd_iff_emod_eq_zero]
  split_ifs <;> omega

theorem fits_fmod (hb : b ≠ 0) : Fits (a.toInt.fmod b.toInt) := by
  have hd := toInt_ne_zero hb
  have hsign := fmod_sign a.toInt hd
  have hfits := fits_toInt b
  rw [fits_iff] at hfits ⊢
  omega

theorem fits_tmod (hb : b ≠ 0) : Fits (a.toInt.tmod b.toInt) := by
  have hless := (tmod_sign a.toInt (toInt_ne_zero hb)).1
  have hfits := fits_toInt b
  rw [fits_iff] at hfits ⊢
  omega

theorem divisionOverflows_iff : divisionOverflows a b ↔ a = Int64.minValue ∧ b = -1 := by
  simp [divisionOverflows]

theorem not_fits_tdiv (h : divisionOverflows a b) : ¬ Fits (a.toInt.tdiv b.toInt) := by
  obtain ⟨rfl, rfl⟩ := divisionOverflows_iff.mp h
  decide

variable {procedure : String} {f : Int → Int → Int}

theorem integerDivision_overflows (hb : b ≠ 0) (h : divisionOverflows a b) :
    integerDivision procedure f a b = .error (.overflow procedure) := by
  rw [integerDivision, if_neg hb, if_pos h]

theorem integerDivision_fits (hb : b ≠ 0) (h : ¬ divisionOverflows a b) :
    integerDivision procedure f a b = (fit procedure (f a.toInt b.toInt)).map int := by
  rw [integerDivision, if_neg hb, if_neg h]

theorem quotient_eq (hb : b ≠ 0) :
    quotient a b = (fit "quotient" (a.toInt.tdiv b.toInt)).map int := by
  by_cases h : divisionOverflows a b
  · rw [fit_eq_error (not_fits_tdiv h)]
    exact integerDivision_overflows hb h
  · exact integerDivision_fits hb h

theorem divide_ints (hb : b ≠ 0) (h : b.toInt ∣ a.toInt) :
    divide (int a) (int b) = (fit "division" (a.toInt / b.toInt)).map int := by
  rw [divide, if_neg hb, if_pos (Int.dvd_iff_tmod_eq_zero.mp h), Int.tdiv_eq_ediv_of_dvd h]

theorem divide_fraction (hb : b ≠ 0) (h : ¬ b.toInt ∣ a.toInt) :
    ∃ x, divide (int a) (int b) = .ok (float x) := by
  rw [divide, if_neg hb, if_neg fun hzero => h (Int.dvd_iff_tmod_eq_zero.mpr hzero)]
  exact ⟨_, rfl⟩

end Number

namespace Routine

open Number (Fits divisionOverflows)

variable {a b m : Int64} {s t : Store}

theorem calculates_quotient : Calculates .quotient [.int a, .int b] (Number.quotient a b) :=
  ⟨rfl, rfl⟩

theorem calculates_remainder : Calculates .remainder [.int a, .int b] (Number.remainder a b) :=
  ⟨rfl, rfl⟩

theorem calculates_modulo : Calculates .modulo [.int a, .int b] (Number.modulo a b) :=
  ⟨rfl, rfl⟩

theorem calculates_divide :
    Calculates .divide [.int a, .int b] (Number.divide (.int a) (.int b)) := by
  refine ⟨rfl, ?_⟩
  change (Number.ofValue "/" (.int a) >>= fun n => Numeric.accumulate "/" _ n [.int b]) = _
  simp only [Numeric.accumulate, Number.ofValue, List.foldlM_cons, List.foldlM_nil, pure_bind,
    bind_assoc]

section Refusing

variable {op : Numeric} {procedure : String} {f : Int → Int → Int}
  (h : Calculates op [.int a, .int b] (Number.integerDivision procedure f a b))

include h

theorem Calculates.division_computes (hb : b ≠ 0) (hover : ¬ divisionOverflows a b) :
    Computes (.numeric op) [.int a, .int b] s procedure (f a.toInt b.toInt) :=
  h.computes (Number.integerDivision_fits hb hover)

theorem Calculates.division_fails (hb : b ≠ 0) (hover : divisionOverflows a b) :
    Fails (.numeric op) [.int a, .int b] s (.overflow procedure) :=
  h.error (Number.integerDivision_overflows hb hover)

theorem Calculates.division_returned (hb : b ≠ 0)
    (hm : Returns (.numeric op) [.int a, .int b] s (.int m) t) :
    m.toInt = f a.toInt b.toInt := by
  by_cases hover : divisionOverflows a b
  · cases (h.division_fails hb hover).unique hm
  · exact (h.division_computes hb hover).returned hm

end Refusing

/-- What the primitives that divide integers make of two of them. -/
structure DividesExactly (a b : Int64) (s : Store) : Prop where
  byZero : b = 0 → ∀ op ∈ [Numeric.quotient, .remainder, .modulo],
    Fails (.numeric op) [.int a, .int b] s (.eval (.divisionByZero (some op.name)))
  divideByZero : b = 0 → Fails (.numeric .divide) [.int a, .int b] s (.eval (.divisionByZero none))
  quotient : b ≠ 0 →
    Computes (.numeric .quotient) [.int a, .int b] s "quotient" (a.toInt.tdiv b.toInt)
  remainder : b ≠ 0 → ¬ (a = Int64.minValue ∧ b = -1) →
    ∃ r : Int64, r.toInt = a.toInt - b.toInt * a.toInt.tdiv b.toInt ∧
      Returns (.numeric .remainder) [.int a, .int b] s (.int r) s
  modulo : b ≠ 0 → ¬ (a = Int64.minValue ∧ b = -1) →
    ∃ m : Int64, m.toInt = a.toInt - b.toInt * a.toInt.fdiv b.toInt ∧
      Returns (.numeric .modulo) [.int a, .int b] s (.int m) s
  /-- The one division that leaves nothing and is refused all the same. -/
  refused : a = Int64.minValue → b = -1 →
    a.toInt - b.toInt * a.toInt.tdiv b.toInt = 0 ∧ a.toInt - b.toInt * a.toInt.fdiv b.toInt = 0 ∧
    Fails (.numeric .remainder) [.int a, .int b] s (.overflow "remainder") ∧
    Fails (.numeric .modulo) [.int a, .int b] s (.overflow "modulo")
  divide : b ≠ 0 → b.toInt ∣ a.toInt →
    Computes (.numeric .divide) [.int a, .int b] s "division" (a.toInt / b.toInt)
  fraction : b ≠ 0 → ¬ b.toInt ∣ a.toInt →
    ∃ x, Returns (.numeric .divide) [.int a, .int b] s (.float x) s
  division : ∀ q r t u, b ≠ 0 → Returns (.numeric .quotient) [.int a, .int b] s (.int q) t →
    Returns (.numeric .remainder) [.int a, .int b] s (.int r) u →
    a.toInt = b.toInt * q.toInt + r.toInt
  remainder_sign : ∀ r t, b ≠ 0 → Returns (.numeric .remainder) [.int a, .int b] s (.int r) t →
    r.toInt.natAbs < b.toInt.natAbs ∧ (0 ≤ a.toInt → 0 ≤ r.toInt) ∧ (a.toInt ≤ 0 → r.toInt ≤ 0)
  modulo_sign : ∀ m t, b ≠ 0 → Returns (.numeric .modulo) [.int a, .int b] s (.int m) t →
    (0 < b.toInt → 0 ≤ m.toInt ∧ m.toInt < b.toInt) ∧
    (b.toInt < 0 → b.toInt < m.toInt ∧ m.toInt ≤ 0)

theorem divides_exactly (a b : Int64) (s : Store) : DividesExactly a b s where
  byZero := by
    rintro rfl op hop
    simp only [List.mem_cons, List.not_mem_nil, or_false] at hop
    obtain rfl | rfl | rfl := hop
    · exact calculates_quotient.error rfl
    · exact calculates_remainder.error rfl
    · exact calculates_modulo.error rfl
  divideByZero := by
    rintro rfl
    exact calculates_divide.error rfl
  quotient hb := calculates_quotient.computes (Number.quotient_eq hb)
  remainder hb h := by
    rw [← Int.tmod_def]
    have hover := mt Number.divisionOverflows_iff.mp h
    exact (calculates_remainder.division_computes hb hover).fits (Number.fits_tmod hb)
  modulo hb h := by
    rw [← Int.fmod_def]
    have hover := mt Number.divisionOverflows_iff.mp h
    exact (calculates_modulo.division_computes hb hover).fits (Number.fits_fmod hb)
  refused ha hb := by
    have hover := Number.divisionOverflows_iff.mpr ⟨ha, hb⟩
    have hzero : b ≠ 0 := hb ▸ by decide
    refine ⟨?_, ?_, calculates_remainder.division_fails hzero hover,
      calculates_modulo.division_fails hzero hover⟩
    · rw [ha, hb]
      decide
    · rw [ha, hb]
      decide
  divide hb h := calculates_divide.computes (Number.divide_ints hb h)
  fraction hb h := by
    obtain ⟨x, hx⟩ := Number.divide_fraction hb h
    exact ⟨x, calculates_divide.float hx⟩
  division q r t u hb hq hr := by
    rw [calculates_quotient.division_returned hb hq, calculates_remainder.division_returned hb hr]
    exact (Int.mul_tdiv_add_tmod _ _).symm
  remainder_sign r t hb hr := by
    rw [calculates_remainder.division_returned hb hr]
    exact Number.tmod_sign _ (Number.toInt_ne_zero hb)
  modulo_sign m t hb hm := by
    rw [calculates_modulo.division_returned hb hm]
    exact Number.fmod_sign _ (Number.toInt_ne_zero hb)

end Routine

end HygienicScheme
