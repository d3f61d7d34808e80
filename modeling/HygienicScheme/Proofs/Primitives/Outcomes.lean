import HygienicScheme.Proofs.Primitives.Lists
import HygienicScheme.Proofs.Primitives.Panics

/-!
# What comes of a call

What is proved of a primitive by itself holds of its calls: under all the checks of the program the
call gives back the same, and in the middle of an evaluation whatever waits for a value goes on with
it, or the error takes its place.
-/
namespace HygienicScheme.Routine

variable {r : Routine} {args : List Value} {s t : Store} {v w : Value} {e : Error}
  {result other : EStateM.Result Error Store Value}

def task : EStateM.Result Error Store Value → Task
  | .ok v _ => .value v
  | .error e _ => .error e

/-- The call gives back this result, however much memory there is and wherever it is made. -/
structure Answers (r : Routine) (args : List Value) (s : Store)
    (result : EStateM.Result Error Store Value) : Prop where
  call : ∀ memory, r.call memory args .none s = .ok result
  step : ∀ c k d, Machine.step c ⟨.apply (.primitive (.routine r)) args, k, d, s⟩ =
    ⟨task result, k, d, Action.after result⟩

abbrev Returns (r : Routine) (args : List Value) (s : Store) (v : Value) (t : Store) : Prop :=
  r.Answers args s (.ok v t)

abbrev Fails (r : Routine) (args : List Value) (s : Store) (e : Error) : Prop :=
  r.Answers args s (.error e s)

theorem Answers.unique (h : r.Answers args s result) (k : r.Answers args s other) :
    result = other :=
  Except.ok.inj ((h.call 0).symm.trans (k.call 0))

/-- A primitive that does not write and makes no vector by its size answers what it gives back. -/
theorem answers_run (hr : r.writes = false) (hmake : r ≠ .vectorial .make)
    (hcount : r.arity.accepts args.length) : r.Answers args s (r.run args s) where
  call memory := agrees_call memory hr hcount (fun h => absurd h hmake) .none s rfl
  step c k d := by
    cases h : r.run args s with
    | ok v t => exact Machine.step_routine_ok hcount h
    | error e t => exact Machine.step_routine_error hcount h

theorem answers_numeric {op : Numeric} (hcount : op.arity.accepts args.length) :
    (numeric op).Answers args s (op.run args s) :=
  answers_run rfl (by simp) hcount

theorem answers_listing {op : Listing} (hop : op.writes = false)
    (hcount : op.arity.accepts args.length) : (listing op).Answers args s (op.run args s) :=
  answers_run hop (by simp) hcount

end HygienicScheme.Routine
