import HygienicScheme.Proofs.Depth.Balance
import HygienicScheme.Proofs.Evaluation.Refinement

/-!
# What machines come to

A task that is done above others comes to what it comes to alone, and what waits for it is resumed
with its value; an error or an escape of the task is that of the whole. So what a machine comes to
is put together from what its tasks come to, at the depth and with the limit that it has.
-/
namespace HygienicScheme

abbrev Run := Store → Result → Store → Prop

namespace Run

def done (v : Value) : Run := fun s r s' => r = .value v ∧ s' = s

def doing {α : Type} (a : Action α) (next : α → Run) : Run := fun s r s' =>
  (∃ x t, a s = .ok x t ∧ next x t r s') ∨ ∃ e, a s = .error e s' ∧ r = .error e

def andThen (first : Run) (next : Value → Run) : Run := fun s r s' =>
  (∃ v t, first s (.value v) t ∧ next v t r s') ∨ (∀ v, r ≠ .value v) ∧ first s r s'

variable {s s' : Store} {r : Result}

theorem doing_congr {α : Type} {a : Action α} {next next' : α → Run}
    (h : ∀ x t, a s = .ok x t → (next x t r s' ↔ next' x t r s')) :
    doing a next s r s' ↔ doing a next' s r s' :=
  or_congr_left (exists_congr fun x => exists_congr fun t => and_congr_right (h x t))

theorem andThen_congr {first first' : Run} {next next' : Value → Run}
    (hfirst : ∀ r t, first s r t ↔ first' s r t)
    (hnext : ∀ v t, first s (.value v) t → (next v t r s' ↔ next' v t r s')) :
    first.andThen next s r s' ↔ first'.andThen next' s r s' := by
  refine or_congr (exists_congr fun v => exists_congr fun t => ?_) (and_congr_right fun _ => ?_)
  · rw [← hfirst]
    exact and_congr_right (hnext v t)
  · exact hfirst r s'

end Run

namespace Machine

variable {c : Context} {m m' : Machine} {k : Stack} {n d : Nat} {s s' t : Store} {r : Result}
  {task : Task} {waiting : Pending}

def Later (c : Context) (m m' : Machine) : Prop := ∃ n, (step c)^[n] m = m'

theorem Later.refl : Later c m m := ⟨0, rfl⟩

theorem Later.trans {m'' : Machine} (h : Later c m m') (k : Later c m' m'') : Later c m m'' := by
  obtain ⟨i, rfl⟩ := h
  obtain ⟨j, rfl⟩ := k
  exact ⟨j + i, Function.iterate_add_apply _ _ _ _⟩

theorem Later.step (h : Later c m m') : Later c m (m'.step c) := h.trans ⟨1, rfl⟩

def Comes (c : Context) (m : Machine) (r : Result) (s' : Store) : Prop := ∃ n, Ends c n m r s'

/-- What comes of a task at this depth. -/
def alone (c : Context) (d : Nat) (task : Task) : Run := fun s => Comes c ⟨task, [], d, s⟩

theorem comes_step : Comes c (step c m) r s' ↔ Comes c m r s' := by
  constructor
  · rintro ⟨n, d, h⟩
    exact ⟨n + 1, d, h⟩
  · rintro ⟨n, d, h⟩
    cases n with
    | zero =>
      obtain rfl : m = ⟨r.task, [], d, s'⟩ := h
      exact ⟨0, d, by cases r <;> rfl⟩
    | succ n => exact ⟨n, d, h⟩

theorem comes_later (h : Later c m m') : Comes c m' r s' ↔ Comes c m r s' := by
  obtain ⟨n, rfl⟩ := h
  induction n generalizing m with
  | zero => exact Iff.rfl
  | succ n ih => exact ih.trans comes_step

theorem comes_of_result : Comes c ⟨r.task, [], d, s⟩ r s := ⟨0, d, rfl⟩

theorem eq_of_ended {outcome : Outcome} (h : m.outcome? = some outcome) :
    ∃ r : Result, m = ⟨r.task, [], m.depth, m.store⟩ := by
  obtain ⟨task, k, d, s⟩ := m
  obtain ⟨rfl, htask⟩ := handed_of_ended (k := []) h
  cases htask with
  | value v => exact ⟨.value v, rfl⟩
  | escape id v => exact ⟨.escape id v, rfl⟩
  | error e => exact ⟨.error e, rfl⟩
  | form form env hk => cases hk

theorem comes_result {r' : Result} : Comes c ⟨r.task, [], d, s⟩ r' s' ↔ r' = r ∧ s' = s := by
  constructor
  · rintro ⟨n, d', h⟩
    have hfix : step c ⟨r.task, [], d, s⟩ = ⟨r.task, [], d, s⟩ := by cases r <;> rfl
    rw [Function.iterate_fixed hfix] at h
    cases r <;> cases r' <;> cases h <;> exact ⟨rfl, rfl⟩
  · rintro ⟨rfl, rfl⟩
    exact comes_of_result

theorem Balanced.iterate {base : Nat} (h : m.Balanced base) (n : Nat) :
    ((Machine.step c)^[n] m).Balanced base := by
  induction n generalizing m with
  | zero => exact h
  | succ n ih => exact ih h.step

theorem Balanced.depth_eq (h : m.Balanced d) (hm : (Machine.step c)^[n] m = ⟨r.task, [], n', s'⟩) :
    n' = d := by
  have hend := h.iterate (c := c) n
  rw [hm] at hend
  exact hend

theorem depth_of_comes (h : (step c)^[n] ⟨task, [], d, s⟩ = ⟨r.task, [], n', s'⟩) : n' = d :=
  Balanced.depth_eq (m := ⟨task, [], d, s⟩) rfl h

theorem step_atop (hended : m.outcome? = none) (hk : k.head? ≠ some .call) :
    step c (m.atop k 0) = (step c m).atop k 0 := by
  have hfits : m.Fits k := fun _ _ _ _ => hk
  cases turn c m with
  | goes popped new hstack hnew htask hstep =>
    have hhere := hstep c.maxDepth k 0 hfits
    rw [c.limited_self] at hhere
    rw [hhere, step_here hstep]
    simp only [atop, List.append_nil, List.append_assoc, Nat.add_zero]
  | nests popped hstack hpopped hstep =>
    have hhere := hstep c.maxDepth k 0 hfits
    rw [c.limited_self] at hhere
    rw [hhere, step_here hstep]
    split
    · simp only [atop, List.append_nil, Nat.add_zero]
    · simp only [atop, List.append_nil, List.cons_append, Nat.add_zero]
  | ended hsome => rw [hsome] at hended; cases hended

theorem later_atop (h : (step c)^[n] m = ⟨r.task, [], d, s⟩) (hk : k.head? ≠ some .call) :
    Later c (m.atop k 0) ⟨r.task, k, d, s⟩ := by
  induction n generalizing m with
  | zero =>
    obtain rfl : m = ⟨r.task, [], d, s⟩ := h
    exact .refl
  | succ n ih =>
    cases hended : m.outcome? with
    | none =>
      have hrest := ih h
      rw [← step_atop hended hk] at hrest
      exact Later.trans ⟨1, rfl⟩ hrest
    | some outcome =>
      rw [Function.iterate_fixed (step_of_ended hended)] at h
      obtain rfl := h
      exact .refl

theorem exists_of_atop (hk : k.head? ≠ some .call)
    (h : (step c)^[n] (m.atop k 0) = ⟨r.task, [], d, s'⟩) :
    ∃ (r₁ : Result) (d₁ : Nat) (s₁ : Store), Later c m ⟨r₁.task, [], d₁, s₁⟩ ∧
      Later c ⟨r₁.task, k, d₁, s₁⟩ ⟨r.task, [], d, s'⟩ := by
  induction n generalizing m with
  | zero =>
    obtain ⟨task, stack, depth, store⟩ := m
    simp only [atop, Function.iterate_zero, id_eq, mk.injEq, List.append_eq_nil_iff] at h
    obtain ⟨rfl, ⟨rfl, rfl⟩, rfl, rfl⟩ := h
    exact ⟨r, _, _, .refl, .refl⟩
  | succ n ih =>
    cases hended : m.outcome? with
    | none =>
      rw [Function.iterate_succ_apply, step_atop hended hk] at h
      obtain ⟨r₁, d₁, s₁, hfirst, hrest⟩ := ih h
      exact ⟨r₁, d₁, s₁, Later.trans ⟨1, rfl⟩ hfirst, hrest⟩
    | some outcome =>
      obtain ⟨r₁, hm⟩ := eq_of_ended hended
      rw [hm] at h ⊢
      exact ⟨r₁, _, _, .refl, n + 1, h⟩

def isTemplate : Pending → Bool
  | .quasiForm _ | .quasiSplice .. | .quasiAppend _ | .quasiRest .. | .quasiCons _
  | .quasiVector => true
  | _ => false

def isPlain : Pending → Bool
  | .nested | .call | .capture _ => false
  | _ => true

theorem step_plain (hw : isPlain waiting) {v : Value} :
    step c ⟨.value v, waiting :: k, d, s⟩ = perform (resume c v waiting k) k d s := by
  have hdepth : depthWithout waiting d = d := by
    cases waiting <;> first | rfl | cases hw
  have hstep : step c ⟨.value v, waiting :: k, d, s⟩ =
      perform (resume c v waiting k) k (depthWithout waiting d) s := rfl
  rw [hstep, hdepth]

theorem step_past (hw : isPlain waiting) (hr : ∀ v, r ≠ .value v) :
    step c ⟨r.task, waiting :: k, d, s⟩ = ⟨r.task, k, d, s⟩ := by
  cases r with
  | value v => exact absurd rfl (hr v)
  | escape id v => cases waiting <;> first | rfl | cases hw
  | error e => cases waiting <;> first | rfl | cases hw

theorem ne_call (hw : isPlain waiting) : (waiting :: k).head? ≠ some .call := by
  rintro ⟨⟩
  cases hw

theorem comes_above (hw : isPlain waiting) (hm : m.Balanced d) :
    Comes c (m.atop [waiting] 0) r s' ↔
      (∃ v t, Comes c m (.value v) t ∧ Comes c (perform (resume c v waiting []) [] d t) r s') ∨
        (∀ v, r ≠ .value v) ∧ Comes c m r s' := by
  have hk : [waiting].head? ≠ some .call := ne_call hw
  constructor
  · rintro ⟨n, d', h⟩
    obtain ⟨r₁, d₁, s₁, ⟨i, hi⟩, hrest⟩ := exists_of_atop hk h
    obtain rfl := hm.depth_eq hi
    have hcomes : Comes c (step c ⟨r₁.task, [waiting], d₁, s₁⟩) r s' :=
      comes_step.mpr ((comes_later hrest).mp comes_of_result)
    by_cases hvalue : ∃ v, r₁ = .value v
    · obtain ⟨v, rfl⟩ := hvalue
      rw [Result.task, step_plain hw] at hcomes
      exact .inl ⟨v, s₁, ⟨i, d₁, hi⟩, hcomes⟩
    · rw [step_past hw (not_exists.mp hvalue)] at hcomes
      obtain ⟨rfl, rfl⟩ := comes_result.mp hcomes
      exact .inr ⟨not_exists.mp hvalue, i, d₁, hi⟩
  · rintro (⟨v, t, ⟨n, d', hv⟩, hrest⟩ | ⟨hr, n, d', h⟩)
    · obtain rfl := hm.depth_eq (r := .value v) hv
      have hlater := later_atop (r := .value v) hv hk
      refine (comes_later hlater).mp (comes_step.mp ?_)
      rwa [Result.task, step_plain hw]
    · obtain rfl := hm.depth_eq h
      refine (comes_later (later_atop h hk)).mp (comes_step.mp ?_)
      rw [step_past hw hr]
      exact comes_of_result

theorem comes_push (hw : isPlain waiting) :
    Comes c ⟨task, [waiting], d, s⟩ r s' ↔
      ((alone c d task).andThen fun v t =>
        Comes c (perform (resume c v waiting []) [] d t)) s r s' :=
  comes_above (m := ⟨task, [], d, s⟩) hw rfl

theorem comes_doing {α : Type} {a : Action α} {move : α → Move} :
    Comes c (perform (a >>= move) [] d s) r s' ↔
      Run.doing a (fun x t => Comes c (perform (move x) [] d t)) s r s' := by
  cases ha : a s with
  | ok x t =>
    have hperform : perform (a >>= move) [] d s = perform (move x) [] d t := by
      simp [perform, bind, EStateM.bind, ha]
    rw [hperform]
    simp [Run.doing, ha]
  | error e t =>
    have hperform : perform (a >>= move) [] d s = ⟨(Result.error e).task, [], d, t⟩ := by
      simp [perform, bind, EStateM.bind, ha, Result.task]
    rw [hperform, comes_result]
    simp only [Run.doing, ha, reduceCtorEq, false_and, exists_false, false_or,
      EStateM.Result.error.injEq]
    grind

theorem comes_give {a : Action Value} :
    Comes c (perform (a >>= fun v => giveValue v []) [] d s) r s' ↔ Run.doing a .done s r s' :=
  comes_doing.trans (Run.doing_congr fun v _ _ => comes_result (r := .value v))

theorem Later.resume_above {start : Machine} {v : Value}
    (h : Later c start (m.atop (waiting :: k) 0)) (hw : isPlain waiting) (hm : m.Balanced d)
    (hv : Comes c m (.value v) t) :
    Later c start (perform (Machine.resume c v waiting k) k d t) := by
  obtain ⟨n, d', hv⟩ := hv
  obtain rfl := hm.depth_eq (r := .value v) hv
  have hvalue := (h.trans (later_atop (r := .value v) hv (ne_call hw))).step
  rwa [Result.task, step_plain hw] at hvalue

theorem Later.resume {start : Machine} {v : Value}
    (h : Later c start ⟨task, waiting :: k, d, s⟩) (hw : isPlain waiting)
    (hv : alone c d task s (.value v) t) :
    Later c start (perform (Machine.resume c v waiting k) k d t) :=
  h.resume_above (m := ⟨task, [], d, s⟩) hw rfl hv

theorem Later.pass_above {start : Machine} (h : Later c start (m.atop (waiting :: k) 0))
    (hw : isPlain waiting) (hm : m.Balanced d) (hr : ∀ v, r ≠ .value v) (hcomes : Comes c m r t) :
    Later c start ⟨r.task, k, d, t⟩ := by
  obtain ⟨n, d', hn⟩ := hcomes
  obtain rfl := hm.depth_eq hn
  have hpast := (h.trans (later_atop hn (ne_call hw))).step
  rwa [step_past hw hr] at hpast

end Machine

end HygienicScheme
