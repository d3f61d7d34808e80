import HygienicScheme.Interpreter
import HygienicScheme.Proofs.Depth.Balance

/-!
# Raising the limit

The limit decides nothing but whether a nested evaluation may begin, and where it may not an error
says so. Since no error is ever caught, a run that ends otherwise has never been refused one, and
with a higher limit it does the same, step by step.
-/
namespace HygienicScheme

/-- The evaluation has ended, and not because this limit was reached. -/
structure Outcome.Within (limit : Nat) (outcome : Outcome) : Prop where
  ended : outcome ≠ .unfinished
  unlimited : outcome ≠ .error (.limit limit)

theorem Outcome.Within.value (limit : Nat) (v : Value) : (Outcome.value v).Within limit :=
  ⟨nofun, nofun⟩

variable {c : Context} {lower higher : Nat}

namespace Machine

variable {m : Machine} {outcome : Outcome} {s : Store}

theorem step_limited (hle : lower ≤ higher) :
    step (c.limited higher) m = step (c.limited lower) m ∨
      (step (c.limited lower) m).task = .error (.limit lower) := by
  rw [← m.atop_nil]
  cases turn c m with
  | goes popped new hstack hnew htask hstep =>
    rw [hstep higher [] 0 m.fits_nil, hstep lower [] 0 m.fits_nil]
    exact .inl rfl
  | nests popped hstack hpopped hstep =>
    rw [hstep higher [] 0 m.fits_nil, hstep lower [] 0 m.fits_nil]
    by_cases hlower : lower ≤ m.depth + 0
    · rw [if_pos hlower]
      exact .inr rfl
    · have hhigher : ¬ higher ≤ m.depth + 0 := fun h => hlower (Nat.le_trans hle h)
      rw [if_neg hlower, if_neg hhigher]
      exact .inl rfl
  | ended hended =>
    rw [atop_nil, step_of_ended hended, step_of_ended hended]
    exact .inl rfl

theorem run_error {e : Error} (htask : m.task = .error e) (n : Nat) :
    (m.run c n).1 = .error e ∨ (m.run c n).1 = .unfinished := by
  induction n generalizing m with
  | zero => exact .inr rfl
  | succ n ih =>
    obtain ⟨task, stack, depth, s⟩ := m
    cases htask
    cases stack with
    | nil => exact .inl rfl
    | cons waiting stack => exact ih rfl

theorem run_limited (hle : lower ≤ higher) {n : Nat}
    (hrun : m.run (c.limited lower) n = (outcome, s)) (h : outcome.Within lower) :
    m.run (c.limited higher) n = (outcome, s) := by
  induction n generalizing m with
  | zero =>
    cases hrun
    exact absurd rfl h.ended
  | succ n ih =>
    unfold run at hrun ⊢
    cases hm : m.outcome? with
    | some outcome =>
      rw [hm] at hrun
      exact hrun
    | none =>
      rw [hm] at hrun
      -- An error cannot be caught, so the run does not come back from reporting the limit.
      rcases step_limited (c := c) (m := m) hle with hstep | herror
      · simp only [hstep]
        exact ih hrun
      · have hfirst : ((step (c.limited lower) m).run (c.limited lower) n).1 = outcome :=
          congrArg Prod.fst hrun
        rcases run_error (c := c.limited lower) herror n with hreported | hunfinished
        · exact absurd (hfirst.symm.trans hreported) h.unlimited
        · exact absurd (hfirst.symm.trans hunfinished) h.ended

end Machine

namespace Context

variable {last outcome : Outcome} {s t : Store}

theorem expandAndEvaluate_limited (hle : lower ≤ higher) {form : Value}
    (heval : (c.limited lower).expandAndEvaluate form s = (outcome, t)) (h : outcome.Within lower) :
    (c.limited higher).expandAndEvaluate form s = (outcome, t) := by
  unfold expandAndEvaluate at heval ⊢
  cases hexpand : Expansion.expandToplevel c.global form s with
  | ok expanded s₁ =>
    simp only [limited, hexpand] at heval ⊢
    exact Machine.run_limited hle heval h
  | error e s₁ =>
    simp only [limited, hexpand] at heval ⊢
    exact heval

theorem evaluateAll_limited (hle : lower ≤ higher) {forms : List Datum}
    (heval : (c.limited lower).evaluateAll last forms s = (outcome, t)) (h : outcome.Within lower) :
    (c.limited higher).evaluateAll last forms s = (outcome, t) := by
  induction forms generalizing last s with
  | nil => exact heval
  | cons d more ih =>
    rw [evaluateAll_cons] at heval ⊢
    cases hfirst : (c.limited lower).expandAndEvaluate (d.place s).1 (d.place s).2 with
    | mk first s₁ =>
      rw [hfirst] at heval
      cases first with
      | value v =>
        rw [expandAndEvaluate_limited hle hfirst (.value lower v)]
        exact ih heval
      | error e =>
        cases heval
        rw [expandAndEvaluate_limited hle hfirst h]
      | unfinished =>
        cases heval
        exact absurd rfl h.ended

end Context

/-- What ends, and not at its limit, ends in the same way and with the same store when it is given a
higher one: a run from any state of the machine, a form that is expanded and evaluated, and a whole
text. -/
theorem evaluates_with_higher_limit (c : Context) (hle : lower ≤ higher) {outcome : Outcome}
    (h : outcome.Within lower) :
    (∀ m n s, Machine.run (c.limited lower) n m = (outcome, s) →
      Machine.run (c.limited higher) n m = (outcome, s)) ∧
    (∀ form s t, (c.limited lower).expandAndEvaluate form s = (outcome, t) →
      (c.limited higher).expandAndEvaluate form s = (outcome, t)) ∧
    ∀ text s t, Interpreter.evalText ⟨c.limited lower, s⟩ text = (outcome, ⟨c.limited lower, t⟩) →
      Interpreter.evalText ⟨c.limited higher, s⟩ text = (outcome, ⟨c.limited higher, t⟩) := by
  refine ⟨?_, ?_, ?_⟩
  · intro m n s hrun
    exact Machine.run_limited hle hrun h
  · intro form s t heval
    exact Context.expandAndEvaluate_limited hle heval h
  · intro text s t heval
    unfold Interpreter.evalText at heval ⊢
    cases hparse : Reader.parseProgram text with
    | error e =>
      rw [hparse] at heval
      cases heval
      rfl
    | ok forms =>
      simp only [hparse, Prod.mk.injEq, Interpreter.mk.injEq, true_and] at heval ⊢
      obtain ⟨rfl, rfl⟩ := heval
      rw [Context.evaluateAll_limited hle rfl h]
      exact ⟨rfl, rfl⟩

/-- The operand is one evaluation inside another, which the lower limit just admits. -/
theorem evaluates_with_higher_limit_nested :
    let context : Context := ⟨1, false, ⟨0, []⟩, "out"⟩
    let choice := Datum.list [.name "if", .list [.name "quote", .bool false], .int 1, .int 2]
    let start := choice.place { Store.empty with frames := #[⟨[], []⟩] }
    ∃ s, Machine.run (context.limited 1) 7 (.start start.1 ⟨0, []⟩ start.2) = (.value (.int 2), s) ∧
      Machine.run (context.limited 10000) 7 (.start start.1 ⟨0, []⟩ start.2) =
        (.value (.int 2), s) := by
  intro context choice start
  have hrun : ∃ s, Machine.run (context.limited 1) 7 (.start start.1 ⟨0, []⟩ start.2) =
      (.value (.int 2), s) := ⟨_, rfl⟩
  obtain ⟨s, hrun⟩ := hrun
  exact ⟨s, hrun,
    (evaluates_with_higher_limit context (by decide) (.value 1 _)).1 _ _ _ hrun⟩

end HygienicScheme
