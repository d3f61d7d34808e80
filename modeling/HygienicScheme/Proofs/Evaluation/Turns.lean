import HygienicScheme.Machine.Run
import HygienicScheme.Proofs.Evaluation.Moves

/-!
# The kinds of steps

A machine that has not ended goes on to another task, at most one entry leaving the stack for new
ones, or it begins a nested evaluation if its limit admits one more. Which of these it does, and
with what, depends neither on its limit nor on what is put below its stack.
-/
namespace HygienicScheme

def Context.limited (c : Context) (limit : Nat) : Context := { c with maxDepth := limit }

theorem Context.limited_self (c : Context) : c.limited c.maxDepth = c := rfl

def Error.limit (maxDepth : Nat) : Error := .eval (.depthLimit maxDepth)

namespace Machine

variable {c : Context} {k : Stack} {d : Nat} {s : Store} {form v : Value} {env : Environment}

def atop (m : Machine) (k : Stack) (d : Nat) : Machine :=
  ⟨m.task, m.stack ++ k, m.depth + d, m.store⟩

def Fits (m : Machine) (k : Stack) : Prop :=
  ∀ form env, m.task = .tail form env → m.stack = [] → k.head? ≠ some .call

theorem atop_nil (m : Machine) : m.atop [] 0 = m := by
  simp [atop]

theorem atop_start (task : Task) (s : Store) (k : Stack) (d : Nat) :
    atop ⟨task, [], 0, s⟩ k d = ⟨task, k, d, s⟩ := by
  simp [atop]

theorem fits_nil (m : Machine) : m.Fits [] := nofun

theorem depthWithout_eq (waiting : Pending) (d : Nat) :
    depthWithout waiting d = d - nestings [waiting] := by
  cases waiting <;> rfl

theorem step_tail (hk : k.head? ≠ some .call) : step c ⟨.tail form env, k, d, s⟩ =
    perform (evaluate c form env k) k d s := by
  cases k with
  | nil => rfl
  | cons waiting k =>
    cases waiting with
    | call => exact absurd rfl hk
    | _ => rfl

inductive Turn (c : Context) (m : Machine) : Prop
  /-- An error is an ordinary one or was there before. -/
  | goes (popped new : Stack) {rest : Stack} {task : Task} {t : Store}
      (hstack : m.stack = popped ++ rest)
      (hnew : nestings new = 0)
      (htask : ∀ e, task = .error e → e.Ordinary ∨ m.task = .error e)
      (h : ∀ limit k d, m.Fits k → step (c.limited limit) (m.atop k d) =
        ⟨task, new ++ (rest ++ k), m.depth + d - nestings popped, t⟩)
  | nests (popped : Stack) {rest : Stack} {form : Value} {env : Environment}
      (hstack : m.stack = popped ++ rest) (hpopped : nestings popped = 0)
      (h : ∀ limit k d, m.Fits k → step (c.limited limit) (m.atop k d) =
        if limit ≤ m.depth + d then ⟨.error (.limit limit), rest ++ k, m.depth + d, m.store⟩
        else ⟨.tail form env, .nested :: (rest ++ k), m.depth + d + 1, m.store⟩)
  | ended {outcome : Outcome} (h : m.outcome? = some outcome)

/-- A move leads to the same on every stack; one that fails leaves the stack as it is. -/
theorem Uniform.perform {move : Stack → Move} (h : Uniform move) (s : Store) :
    ∃ task new t, nestings new = 0 ∧ (∀ e, task = .error e → e.Ordinary) ∧
      ∀ k d, Machine.perform (move k) k d s = ⟨task, new ++ k, d, t⟩ := by
  cases h s with
  | @fails e t he h =>
    refine ⟨.error e, [], t, rfl, ?_, fun k d => ?_⟩
    · rintro _ ⟨⟩
      exact he
    · simp only [Machine.perform, h, List.nil_append]
  | @goes task new t htask hnew h =>
    refine ⟨task, new, t, hnew, fun e he => absurd he (htask e), fun k d => ?_⟩
    simp only [Machine.perform, h]

namespace Turn

variable {rest : Stack} {m : Machine}

theorem of_move (popped : Stack) {move : Stack → Move} (hstack : m.stack = popped ++ rest)
    (hmove : Uniform move)
    (h : ∀ limit k d, m.Fits k → step (c.limited limit) (m.atop k d) =
      perform (move (rest ++ k)) (rest ++ k) (m.depth + d - nestings popped) m.store) :
    Turn c m := by
  obtain ⟨task, new, t, hnew, htask, hperform⟩ := hmove.perform m.store
  exact .goes popped new hstack hnew (fun e he => .inl (htask e he)) fun limit k d hk =>
    (h limit k d hk).trans (hperform _ _)

theorem of_nest (popped : Stack) (hstack : m.stack = popped ++ rest)
    (hpopped : nestings popped = 0)
    (h : ∀ limit k d, m.Fits k → step (c.limited limit) (m.atop k d) =
      nest (c.limited limit) form env (rest ++ k) (m.depth + d) m.store) : Turn c m := by
  have hevaluate : Uniform (evaluate c form env) := .evaluate form
  have hother (hnest : ∀ limit k d s, nest (c.limited limit) form env k d s =
      perform (evaluate c form env k) k d s) : Turn c m := by
    refine .of_move popped hstack hevaluate fun limit k d hk => ?_
    rw [h limit k d hk, hnest, hpopped, Nat.sub_zero]
  cases form with
  | pair _ | null => exact .nests popped hstack hpopped h
  | _ => exact hother fun _ _ _ _ => rfl

theorem pop {task : Task} {waiting : Pending} {move : Stack → Move} (hmove : Uniform move)
    (h : ∀ limit k d', step (c.limited limit) (atop ⟨task, waiting :: rest, d, s⟩ k d') =
      perform (move (rest ++ k)) (rest ++ k) (depthWithout waiting (d + d')) s) :
    Turn c ⟨task, waiting :: rest, d, s⟩ := by
  refine .of_move [waiting] rfl hmove fun limit k d' _ => ?_
  rw [← depthWithout_eq]
  exact h limit k d'

end Turn

theorem turn (c : Context) (m : Machine) : Turn c m := by
  obtain ⟨task, stack, depth, s⟩ := m
  cases task with
  | eval form env => exact .of_nest [] rfl rfl fun _ _ _ _ => rfl
  | tail form env =>
    cases stack with
    | nil => exact .of_move [] rfl (.evaluate form) fun _ _ _ hk =>
        step_tail (hk form env rfl rfl)
    | cons waiting stack =>
      cases waiting with
      | call => exact .of_nest [.call] rfl rfl fun _ _ _ _ => rfl
      | _ => exact .of_move [] rfl (.evaluate form) fun _ _ _ _ => rfl
  | apply f args => exact .of_move [] rfl (.apply args) fun _ _ _ _ => rfl
  | template v env level => exact .of_move [] rfl (.template v) fun _ _ _ _ => rfl
  | value v =>
    cases stack with
    | nil => exact .ended rfl
    | cons waiting stack =>
      exact .pop (Uniform.resume (c := c) (v := v) waiting) fun _ _ _ => rfl
  | escape id v =>
    cases stack with
    | nil => exact .ended rfl
    | cons waiting stack =>
      -- An escape passes all that waits, up to the capture that it belongs to.
      have hpasses : Uniform fun k => pure (.escape id v, k) := .stay nofun
      cases waiting with
      | capture target =>
        cases hid : target == id with
        | true =>
          refine .pop (Uniform.give v) fun limit k d => ?_
          simp only [step, atop, List.cons_append, hid, if_true]
          rfl
        | false =>
          refine .pop hpasses fun limit k d => ?_
          simp only [step, atop, List.cons_append, hid]
          rfl
      | _ => exact .pop hpasses fun _ _ _ => rfl
  | error e =>
    cases stack with
    | nil => exact .ended rfl
    | cons waiting stack =>
      have htask : ∀ e', Task.error e = .error e' → e'.Ordinary ∨ Task.error e = .error e' :=
        fun _ he => .inr he
      refine .goes [waiting] [] (t := s) rfl rfl htask fun limit k d _ => ?_
      rw [← depthWithout_eq]
      rfl

end Machine
end HygienicScheme
