import HygienicScheme.Proofs.Numbers.Fitting

/-!
# Sums, products and differences

The arguments are combined from the left, and each of them is looked at when its turn comes. As
long as all are integers every partial result must fit in 64 bits; from the first double on nothing
overflows any more. So what comes first from the left decides: a partial result that does not fit,
or an argument that is no number.
-/
namespace HygienicScheme

open Number (Fits)

structure Combination where
  procedure : String
  operation : String
  onInts : Int → Int → Int
  onFloats : Float → Float → Float

namespace Combination

def addition : Combination := ⟨"+", "addition", (· + ·), (· + ·)⟩

def multiplication : Combination := ⟨"*", "multiplication", (· * ·), (· * ·)⟩

def negation : Combination := ⟨"-", "negation", (· - ·), (· - ·)⟩

def subtraction : Combination := ⟨"-", "subtraction", (· - ·), (· - ·)⟩

variable (c : Combination)

def partials (a : Int64) (ns : List Int64) : List Int :=
  (ns.map Int64.toInt).scanl c.onInts a.toInt

def total (a : Int64) (ns : List Int64) : Int := (ns.map Int64.toInt).foldl c.onInts a.toInt

def complaint (s : Store) (v : Value) : Error :=
  .type (.argument c.procedure "number" v.typeName (s.writeText v))

def fold (start : Number) (args : List Value) : Action Number :=
  args.foldlM (fun n v => do
    let next ← Number.ofValue c.procedure v
    Number.combine c.operation c.onInts c.onFloats n next) start

def StaysWithin (start : Number) (vs : List Value) : Prop := ∀ a ns rest, start = .int a →
  vs = List.map .int ns ++ rest → ∀ m ∈ c.partials a ns, Fits m

/-! ## One argument more -/

variable {c} {s t : Store} {a b m : Int64} {n x start : Number} {v : Value} {ns : List Int64}
  {args before rest : List Value}

theorem fold_number (h : Number.combine c.operation c.onInts c.onFloats start n = .ok x) :
    c.fold start (n.toValue :: rest) s = c.fold x rest s := by
  cases n <;> simp only [fold, Number.toValue, List.foldlM_cons, Number.ofValue, pure_bind, h] <;>
    rfl

theorem fold_int (hm : m.toInt = c.onInts a.toInt b.toInt) :
    c.fold (.int a) (.int b :: rest) s = c.fold (.int m) rest s :=
  fold_number (n := .int b) (by rw [Number.combine, Number.fit_eq_ok hm]; rfl)

theorem fold_overflows (h : ¬ Fits (c.onInts a.toInt b.toInt)) :
    c.fold (.int a) (.int b :: rest) s = .error (.overflow c.operation) s := by
  simp only [fold, List.foldlM_cons, Number.ofValue, pure_bind, Number.combine,
    Number.fit_eq_error h]
  rfl

theorem fold_float (rest : List Value) (s : Store) (h : start.isFloat ∨ n.isFloat) :
    ∃ x, c.fold start (n.toValue :: rest) s = c.fold (.float x) rest s := by
  cases start with
  | int a =>
    cases n with
    | int b => simp [Number.isFloat] at h
    | float y => exact ⟨_, fold_number rfl⟩
  | float x => exact ⟨_, fold_number rfl⟩

theorem ofValue_toValue (procedure : String) (n : Number) :
    Number.ofValue procedure n.toValue = pure n := by
  cases n <;> rfl

theorem ofValue_error (hv : ¬ v.isNumber) :
    Number.ofValue c.procedure v s = .error (c.complaint s v) s := by
  cases v with
  | int n => exact absurd rfl hv
  | float x => exact absurd rfl hv
  | _ => rfl

theorem fold_reject (hv : ¬ v.isNumber) :
    c.fold start (v :: rest) s = .error (c.complaint s v) s := by
  rw [fold, List.foldlM_cons, bind_assoc, Action.bind_error (ofValue_error hv)]

theorem exists_number (hv : v.isNumber) : ∃ n : Number, v = n.toValue := by
  cases v with
  | int n => exact ⟨.int n, rfl⟩
  | float x => exact ⟨.float x, rfl⟩
  | _ => cases hv

theorem exists_ints (h : ¬ (start.isFloat ∨ n.isFloat)) :
    ∃ a b, start = .int a ∧ n = .int b := by
  cases start with
  | float x => simp [Number.isFloat] at h
  | int a =>
    cases n with
    | float x => simp [Number.isFloat] at h
    | int b => exact ⟨a, b, rfl, rfl⟩

theorem partials_cons : c.partials a (b :: ns) =
    a.toInt :: (ns.map Int64.toInt).scanl c.onInts (c.onInts a.toInt b.toInt) := by
  rw [partials, List.map_cons, List.scanl_cons]

theorem partials_next (hm : m.toInt = c.onInts a.toInt b.toInt) :
    c.partials a (b :: ns) = a.toInt :: c.partials m ns := by
  rw [partials_cons, ← hm, partials]

theorem total_next (hm : m.toInt = c.onInts a.toInt b.toInt) :
    c.total a (b :: ns) = c.total m ns := by
  rw [total, List.map_cons, List.foldl_cons, ← hm, total]

theorem mem_partials : c.onInts a.toInt b.toInt ∈ c.partials a (b :: ns) := by
  rw [partials_cons]
  cases ns <;> simp

theorem StaysWithin.next (h : c.StaysWithin (.int a) (.int b :: rest))
    (hm : m.toInt = c.onInts a.toInt b.toInt) : c.StaysWithin (.int m) rest := by
  rintro _ ns more ⟨⟩ rfl k hk
  refine h a (b :: ns) more rfl rfl k ?_
  rw [partials_next hm]
  exact List.mem_cons_of_mem _ hk

/-! ## All arguments -/

theorem fold_exact (h : ∀ m ∈ c.partials a ns, Fits m) : ∃ m : Int64, m.toInt = c.total a ns ∧
    c.fold (.int a) (ns.map .int) s = .ok (.int m) s := by
  induction ns generalizing a with
  | nil => exact ⟨a, rfl, rfl⟩
  | cons b more ih =>
    have hm := Number.toInt_ofInt (h _ mem_partials)
    rw [partials_next hm, List.forall_mem_cons] at h
    obtain ⟨m, htotal, hfold⟩ := ih h.2
    exact ⟨m, htotal.trans (total_next hm).symm, (fold_int hm).trans hfold⟩

theorem fold_overflow (h : ∃ m ∈ c.partials a ns, ¬ Fits m) :
    c.fold (.int a) (ns.map .int ++ rest) s = .error (.overflow c.operation) s := by
  induction ns generalizing a with
  | nil =>
    obtain ⟨m, hm, hover⟩ := h
    rw [partials, List.map_nil, List.scanl_nil, List.mem_singleton] at hm
    exact absurd (hm ▸ Number.fits_toInt a) hover
  | cons b more ih =>
    by_cases hfits : Fits (c.onInts a.toInt b.toInt)
    · have hm := Number.toInt_ofInt hfits
      rw [partials_next hm, List.exists_mem_cons_iff] at h
      have hmore := h.resolve_left fun hover => hover (Number.fits_toInt a)
      exact (fold_int hm).trans (ih hmore)
    · exact fold_overflows hfits

theorem fold_only (h : c.fold start args s = .ok (.int m) t) : ∃ a ns, start = .int a ∧
    args = List.map .int ns ∧ (∀ k ∈ c.partials a ns, Fits k) ∧ m.toInt = c.total a ns := by
  induction args generalizing start with
  | nil =>
    cases h
    exact ⟨m, [], rfl, rfl, by simpa [partials] using Number.fits_toInt m, rfl⟩
  | cons v more ih =>
    by_cases hv : v.isNumber
    · obtain ⟨n, rfl⟩ := exists_number hv
      by_cases hfloat : start.isFloat ∨ n.isFloat
      · obtain ⟨x, hx⟩ := fold_float (c := c) more s hfloat
        obtain ⟨a, -, hstart, -⟩ := ih (hx.symm.trans h)
        cases hstart
      · obtain ⟨a, b, rfl, rfl⟩ := exists_ints hfloat
        by_cases hfits : Fits (c.onInts a.toInt b.toInt)
        · have hm := Number.toInt_ofInt hfits
          obtain ⟨_, ns, hnext, rfl, hall, htotal⟩ := ih ((fold_int hm).symm.trans h)
          cases hnext
          refine ⟨a, b :: ns, rfl, rfl, ?_, htotal.trans (total_next hm).symm⟩
          rw [partials_next hm, List.forall_mem_cons]
          exact ⟨Number.fits_toInt a, hall⟩
        · cases (fold_overflows hfits).symm.trans h
    · cases (fold_reject hv).symm.trans h

theorem fold_numbers (rest : List Value) (s : Store) (hnumber : ∀ v ∈ before, v.isNumber)
    (hwithin : c.StaysWithin start before) :
    ∃ n : Number, (start.isFloat ∨ (∃ x, .float x ∈ before) → n.isFloat) ∧
      c.fold start (before ++ rest) s = c.fold n rest s := by
  induction before generalizing start with
  | nil => exact ⟨start, by simp, rfl⟩
  | cons v more ih =>
    obtain ⟨hv, hmore⟩ := List.forall_mem_cons.mp hnumber
    obtain ⟨n, rfl⟩ := exists_number hv
    by_cases hfloat : start.isFloat ∨ n.isFloat
    · obtain ⟨x, hx⟩ := fold_float (c := c) (more ++ rest) s hfloat
      have hnext : c.StaysWithin (.float x) more := nofun
      obtain ⟨y, hy, hfold⟩ := ih hmore hnext
      exact ⟨y, fun _ => hy (.inl rfl), hx.trans hfold⟩
    · obtain ⟨a, b, rfl, rfl⟩ := exists_ints hfloat
      have hm := Number.toInt_ofInt (hwithin a [b] more rfl rfl _ mem_partials)
      obtain ⟨n, hn, hfold⟩ := ih hmore (hwithin.next hm)
      refine ⟨n, fun h => hn ?_, (fold_int hm).trans hfold⟩
      simpa [Number.isFloat, Number.toValue] using h

/-! ## The primitives -/

open Routine (Returns Fails answers_numeric)

structure Combines (op : Numeric) (args : List Value) (c : Combination) (start : Number)
    (rest : List Value) (s : Store) : Prop where
  exact : ∀ a ns, start = .int a → rest = List.map .int ns → (∀ k ∈ c.partials a ns, Fits k) →
    ∃ m : Int64, m.toInt = c.total a ns ∧ Returns (.numeric op) args s (.int m) s
  only : ∀ m t, Returns (.numeric op) args s (.int m) t → ∃ a ns, start = .int a ∧
    rest = List.map .int ns ∧ (∀ k ∈ c.partials a ns, Fits k) ∧ m.toInt = c.total a ns
  overflow : ∀ a ns more, start = .int a → rest = List.map .int ns ++ more →
    (∃ k ∈ c.partials a ns, ¬ Fits k) → Fails (.numeric op) args s (.overflow c.operation)
  reject : ∀ before v after, rest = before ++ v :: after → (∀ w ∈ before, w.isNumber) →
    c.StaysWithin start before → ¬ v.isNumber → Fails (.numeric op) args s (c.complaint s v)
  mixed : (∀ v ∈ rest, v.isNumber) → c.StaysWithin start rest →
    (start.isFloat ∨ ∃ x, .float x ∈ rest) → ∃ x, Returns (.numeric op) args s (.float x) s

theorem combines_of_run {op : Numeric} (hcount : op.arity.accepts args.length)
    (hrun : op.run args s = (c.fold start rest >>= fun n => pure n.toValue) s) :
    Combines op args c start rest s := by
  have hanswer := answers_numeric (s := s) hcount
  rw [hrun] at hanswer
  constructor
  case exact =>
    rintro a ns rfl rfl h
    obtain ⟨m, htotal, hfold⟩ := fold_exact (s := s) h
    rw [Action.bind_ok hfold] at hanswer
    exact ⟨m, htotal, hanswer⟩
  case only =>
    intro m t h
    obtain ⟨n, u, hfold, hn⟩ := Action.ok_of_bind (hanswer.unique h)
    cases n with
    | int k =>
      cases hn
      exact fold_only hfold
    | float x => cases hn
  case overflow =>
    rintro a ns more rfl rfl h
    rwa [Action.bind_error (fold_overflow h)] at hanswer
  case reject =>
    rintro before v after rfl hbefore hwithin hv
    obtain ⟨n, -, hfold⟩ := fold_numbers (v :: after) s hbefore hwithin
    rwa [Action.bind_error (hfold.trans (fold_reject hv))] at hanswer
  case mixed =>
    intro hnumber hwithin hfloat
    obtain ⟨n, hn, hfold⟩ := fold_numbers [] s hnumber hwithin
    rw [List.append_nil] at hfold
    cases n with
    | int k => exact absurd (hn hfloat) (by simp [Number.isFloat])
    | float x =>
      rw [Action.bind_ok hfold] at hanswer
      exact ⟨x, hanswer⟩

theorem foldl_sub (ns : List Int) (k : Int) : ns.foldl (· - ·) k = k - ns.sum := by
  induction ns generalizing k with
  | nil => simp
  | cons n more ih =>
    rw [List.foldl_cons, ih, List.sum_cons]
    omega

/-- What `+`, `*` and `-` do with all arguments. -/
structure CombinesExactly (s : Store) : Prop where
  sum : ∀ args, Combines .add args addition (.int 0) args s
  product : ∀ args, Combines .multiply args multiplication (.int 1) args s
  negative : ∀ v, Combines .subtract [v] negation (.int 0) [v] s
  difference : ∀ (n : Number) v more,
    Combines .subtract (n.toValue :: v :: more) subtraction n (v :: more) s
  /-- The first of several arguments is looked at before anything is subtracted from it. -/
  first : ∀ v w more, ¬ v.isNumber →
    Fails (.numeric .subtract) (v :: w :: more) s (subtraction.complaint s v)
  total_sum : ∀ ns, addition.total 0 ns = (ns.map Int64.toInt).sum
  total_product : ∀ ns, multiplication.total 1 ns = (ns.map Int64.toInt).prod
  total_negative : ∀ n, negation.total 0 [n] = -n.toInt
  total_difference : ∀ a ns, subtraction.total a ns = a.toInt - (ns.map Int64.toInt).sum

theorem combines_exactly (s : Store) : CombinesExactly s where
  sum args := combines_of_run rfl rfl
  product args := combines_of_run rfl rfl
  negative v := by
    refine combines_of_run rfl ?_
    change (Number.ofValue "-" v >>= fun n => liftM n.negate >>= fun m => pure m.toValue) s = _
    simp only [fold, List.foldlM_cons, List.foldlM_nil, bind_assoc, pure_bind]
    rfl
  difference n v more := by
    refine combines_of_run rfl ?_
    change (Number.ofValue "-" n.toValue >>= _) s = _
    rw [ofValue_toValue]
    rfl
  first v w more hv := by
    have hanswer : (Routine.numeric .subtract).Answers (v :: w :: more) s _ := answers_numeric rfl
    have hrun : Numeric.run .subtract (v :: w :: more) s =
        .error (subtraction.complaint s v) s :=
      Action.bind_error (ofValue_error (c := subtraction) hv) _
    rwa [hrun] at hanswer
  total_sum ns := List.sum_eq_foldl.symm
  total_product ns := List.prod_eq_foldl.symm
  total_negative n := Int.zero_sub _
  total_difference a ns := foldl_sub _ _

end Combination

end HygienicScheme
