import HygienicScheme.Proofs.Primitives.Outcomes

/-!
# Integers that fit

An integer of the mathematics is a number of the program if it has a place in 64 bits. What is
computed exactly comes out if it fits, and is reported as an overflow if it does not.
-/
namespace HygienicScheme

namespace Number

variable {n : Int} {operation : String}

def Fits (n : Int) : Prop := Int64.minValue.toInt ≤ n ∧ n ≤ Int64.maxValue.toInt

instance : DecidablePred Fits := fun _ => inferInstanceAs (Decidable (_ ∧ _))

theorem fits_toInt (n : Int64) : Fits n.toInt := ⟨Int64.minValue_le_toInt n, Int64.toInt_le n⟩

theorem fits_iff : Fits n ↔ -2 ^ 63 ≤ n ∧ n < 2 ^ 63 := by
  have hmin : Int64.minValue.toInt = -2 ^ 63 := rfl
  have hmax : Int64.maxValue.toInt = 2 ^ 63 - 1 := rfl
  rw [Fits, hmin, hmax]
  omega

theorem toInt_ofInt (h : Fits n) : (Int64.ofInt n).toInt = n :=
  Int64.toInt_ofInt_of_le (fits_iff.mp h).1 (fits_iff.mp h).2

theorem whole?_eq_some {m : Int64} : Decimal.whole? n = some m ↔ m.toInt = n := by
  constructor
  · intro h
    rw [Decimal.whole?] at h
    split at h
    · rename_i hfits
      rw [← Option.some.inj h]
      exact toInt_ofInt hfits
    · cases h
  · rintro rfl
    exact Reader.whole?_toInt m

theorem whole?_eq_none : Decimal.whole? n = none ↔ ¬ Fits n := by
  rw [Decimal.whole?]
  exact ite_eq_right_iff.trans (by simp [Fits])

theorem fit_eq_ok {m : Int64} (h : m.toInt = n) : fit operation n = .ok m := by
  rw [fit, whole?_eq_some.mpr h]

theorem fit_eq_error (h : ¬ Fits n) : fit operation n = .error (.overflow operation) := by
  rw [fit, whole?_eq_none.mpr h]

end Number

/-! ## Calls that compute a number -/
namespace Routine

open Number (Fits)

structure Computes (r : Routine) (args : List Value) (s : Store) (operation : String) (n : Int) :
    Prop where
  fits : Fits n → ∃ m : Int64, m.toInt = n ∧ r.Returns args s (.int m) s
  overflow : ¬ Fits n → r.Fails args s (.overflow operation)

theorem Computes.returned {r : Routine} {args : List Value} {s t : Store} {operation : String}
    {n : Int} {m : Int64} (h : r.Computes args s operation n) (hm : r.Returns args s (.int m) t) :
    m.toInt = n := by
  by_cases hfits : Fits n
  · obtain ⟨k, hk, hreturns⟩ := h.fits hfits
    cases hreturns.unique hm
    exact hk
  · cases (h.overflow hfits).unique hm

structure Calculates (op : Numeric) (args : List Value) (x : Except Error Number) : Prop where
  count : op.arity.accepts args.length
  run : op.run args = (liftM x : Action Number) >>= fun n => pure n.toValue

namespace Calculates

variable {op : Numeric} {args : List Value} {s : Store} {x : Except Error Number} {m : Int64}
  {y : Float} {e : Error} {operation : String} {n : Int}

theorem answers (h : Calculates op args x) : (numeric op).Answers args s
    (((liftM x : Action Number) >>= fun n => pure n.toValue) s) := by
  rw [← h.run]
  exact answers_numeric h.count

theorem int (h : Calculates op args x) (hx : x = .ok (.int m)) :
    (numeric op).Returns args s (.int m) s := by
  subst hx
  exact h.answers

theorem float (h : Calculates op args x) (hx : x = .ok (.float y)) :
    (numeric op).Returns args s (.float y) s := by
  subst hx
  exact h.answers

theorem error (h : Calculates op args x) (hx : x = .error e) : (numeric op).Fails args s e := by
  subst hx
  exact h.answers

theorem computes (h : Calculates op args x) (hx : x = (Number.fit operation n).map .int) :
    (numeric op).Computes args s operation n where
  fits hfits := by
    have hm := Number.toInt_ofInt hfits
    exact ⟨_, hm, h.int (hx.trans (by rw [Number.fit_eq_ok hm]; rfl))⟩
  overflow hover := h.error (hx.trans (by rw [Number.fit_eq_error hover]; rfl))

end Calculates

end Routine

end HygienicScheme
