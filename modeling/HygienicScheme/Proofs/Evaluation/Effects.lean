import HygienicScheme.Proofs.Evaluation.Calm
import HygienicScheme.Proofs.Evaluation.Turns

/-!
# What one step does to the store

Of all that the machine does, only four things touch a frame or a counter of expansion: an
assignment, a definition, the call of a closure, which makes a frame, and a call of `eval`, which
expands a form. Every other step is quiet. `step_effect` says so, and in which states the machine
does which of them.
-/
namespace HygienicScheme

namespace Machine

open Discipline BuildingDiscipline PrimitiveDiscipline

variable {c : Context} {m : Machine} {s t : Store} {k : Stack} {env : Environment} {v f : Value}
  {x : Symbol} {d : Nat}

/-- A definition at the top level, in a session in which it may replace another. -/
def relaxed (c : Context) (env : Environment) : Bool := c.redefine && env.frame == c.global.frame

theorem define_outcome : Action.define env x v s =
    if s.binds env x then .error (.duplicate x.name) s else .ok () (s.bind env.frame x v) := by
  unfold Action.define
  rw [Action.inspect_bind]
  split <;> rfl

theorem bindDefinition_outcome : bindDefinition c x v env k s =
    if relaxed c env = false ∧ s.binds env x = true then .error (.duplicate x.name) s
    else .ok (.value .unspecified, k) (s.bind env.frame x v) := by
  unfold bindDefinition relaxed
  cases c.redefine && env.frame == c.global.frame with
  | true => rfl
  | false =>
    have hdefine : Action.define env x v s = _ := define_outcome
    cases hbinds : s.binds env x with
    | true =>
      rw [hbinds, if_pos rfl] at hdefine
      exact Action.bind_error hdefine _
    | false =>
      rw [hbinds, if_neg Bool.false_ne_true] at hdefine
      exact Action.bind_ok hdefine _

inductive Defines (m : Machine) (x : Symbol) (v : Value) (env : Environment) : Store → Prop
  | waiting {k : Stack} (htask : m.task = .value v) (hstack : m.stack = .definition x env :: k) :
      Defines m x v env m.store
  | made {a : Address} {operands body : List Value} {formals : Value} {s : Store}
      (htask : m.task = .tail (.pair a) env) (hstack : m.stack.head? ≠ some .call)
      (hform : specialForm? (m.store.pairAt a).car = some .define)
      (hoperands : m.store.properList? (m.store.pairAt a).cdr = some operands)
      (hparts : defined? m.store operands = some (x, formals, body))
      (hx : checkDefinable x = .ok ())
      (hmake : Procedure.make formals body env (some x.name) m.store = .ok v s) :
      Defines m x v env s

def Assigns (m : Machine) (f : Address) (x : Symbol) (v : Value) : Prop :=
  ∃ y env k, m.task = .value v ∧ m.stack = .assignment y env :: k ∧
    m.store.resolve? env y = some (f, x)

def expanding? (m : Machine) : Option Value :=
  match m.task with
  | .apply (.primitive (.control .eval)) (form :: more) =>
    if (Primitive.control .eval).arity.accepts (form :: more).length then some form else none
  | _ => none

inductive Effect (c : Context) (m : Machine) : Prop
  | quiet (h : m.store.Quiet (m.step c).store)
  | call {a : Address} {args : List Value} {bindings : List (Symbol × Value)} {s : Store}
      (htask : m.task = .apply (.closure a) args) (hs : m.store.Quiet s)
      (h : { s with frames := s.frames.push ⟨bindings, []⟩ }.Quiet (m.step c).store)
  | assign {f : Address} {x : Symbol} {v : Value} (hassigns : m.Assigns f x v)
      (h : (m.step c).store = m.store.bind f x v)
  | define {x : Symbol} {v : Value} {env : Environment} {s : Store}
      (hdefines : m.Defines x v env s)
  | expand {form : Value} (hform : m.expanding? = some form)
      (h : (m.step c).store = Action.after (Expansion.expandToplevel c.global form m.store))

def Restacks (m m' : Machine) : Prop :=
  ∃ new rest, m'.stack = new ++ rest ∧ rest <:+ m.stack ∧ ∀ waiting ∈ new, waiting.Definable

theorem Restacks.definable {m m' : Machine} (h : m.Restacks m')
    (hm : ∀ waiting ∈ m.stack, waiting.Definable) : ∀ waiting ∈ m'.stack, waiting.Definable := by
  obtain ⟨new, rest, hstack, hrest, hnew⟩ := h
  rw [hstack]
  exact List.forall_mem_append.mpr ⟨hnew, fun w hw => hm w (hrest.subset hw)⟩

theorem perform_store (move : Move) (k : Stack) (d : Nat) (s : Store) :
    (perform move k d s).store = Action.after (move s) := by
  unfold perform
  cases move s <;> rfl

theorem perform_congr {move move' : Move} (h : move s = move' t) :
    perform move k d s = perform move' k d t := by
  unfold perform
  rw [h]

section Performing

variable {move : Move} {rest : Stack}

theorem calm_effect (hstep : m.step c = perform move rest d m.store)
    (h : Calm move m.store (Pushes rest)) : Effect c m := by
  refine .quiet ?_
  rw [hstep, perform_store]
  exact h.1.2

theorem restacks_perform (hrest : rest <:+ m.stack)
    (h : ∀ next t, move s = .ok next t → Pushes rest t next) :
    m.Restacks (perform move rest d s) := by
  unfold perform
  cases hmove : move s with
  | ok next t =>
    obtain ⟨new, hnew, hdefinable⟩ := h next t hmove
    exact ⟨new, rest, hnew, hrest, hdefinable⟩
  | error e t => exact ⟨[], rest, rfl, hrest, by simp⟩

theorem calm_step (hrest : rest <:+ m.stack) (hstep : m.step c = perform move rest d m.store)
    (h : Calm move m.store (Pushes rest)) : Effect c m ∧ m.Restacks (m.step c) := by
  refine ⟨calm_effect hstep h, ?_⟩
  rw [hstep]
  exact restacks_perform hrest h.2

theorem still_step (hstore : (m.step c).store = m.store) (hstack : (m.step c).stack <:+ m.stack) :
    Effect c m ∧ m.Restacks (m.step c) := by
  refine ⟨.quiet ?_, [], _, rfl, hstack, by simp⟩
  rw [hstore]
  exact .refl _

end Performing

theorem bindDefinition_pushes {next : Task × Stack}
    (h : bindDefinition c x v env k s = .ok next t) : Pushes k t next := by
  rw [bindDefinition_outcome] at h
  split at h
  · cases h
  · cases h
    exact .stay _

theorem evaluate_special {a : Address} {form : SpecialForm}
    (hform : specialForm? (s.pairAt a).car = some form) :
    evaluate c (.pair a) env k s = special c form (s.pairAt a).cdr env k s := by
  unfold evaluate
  dsimp only
  rw [Action.inspect_bind, hform]

theorem evaluate_made {a : Address} {operands body : List Value} {formals : Value}
    (hform : specialForm? (s.pairAt a).car = some .define)
    (hoperands : s.properList? (s.pairAt a).cdr = some operands)
    (hparts : defined? s operands = some (x, formals, body)) :
    evaluate c (.pair a) env k s = (do
      checkDefinable x
      bindDefinition c x (← Procedure.make formals body env (some x.name)) env k : Move) s :=
  calc evaluate c (.pair a) env k s
      = special c .define (s.pairAt a).cdr env k s := evaluate_special hform
    _ = define c operands env k s := by
        unfold special Action.properList?
        rw [Action.inspect_bind, hoperands]
    _ = _ := define_made hparts

theorem Defines.step (h : m.Defines x v env s) (c : Context) :
    ∃ k d, m.step c = perform (bindDefinition c x v env k) k d s := by
  obtain ⟨task, k, d, s₀⟩ := m
  cases h with
  | waiting htask hstack =>
    cases htask
    cases hstack
    exact ⟨_, _, rfl⟩
  | made htask hstack hform hoperands hparts hx hmake =>
    cases htask
    refine ⟨k, d, (step_tail hstack).trans (perform_congr ?_)⟩
    rw [evaluate_made hform hoperands hparts, hx, Action.ok_bind, Action.bind_ok hmake]

theorem make_ok {formals : Value} {body : List Value} {name : Option String}
    (h : Procedure.make formals body env name s = .ok v t) :
    ∃ closure, t = { s with closures := s.closures.push closure } := by
  unfold Procedure.make at h
  split at h
  · cases h
  · rw [Action.inspect_bind] at h
    cases hformals : Procedure.formals s formals with
    | error e =>
      rw [hformals, Action.error_bind] at h
      cases h
    | ok parsed =>
      rw [hformals, Action.ok_bind] at h
      cases h
      exact ⟨_, rfl⟩

theorem Defines.ready (h : m.Defines x v env s) :
    s = m.store ∨ ∃ closure, s = { m.store with closures := m.store.closures.push closure } := by
  cases h with
  | waiting => exact .inl rfl
  | made _ _ _ _ _ _ hmake => exact .inr (make_ok hmake)

theorem Defines.quiet (h : m.Defines x v env s) : m.store.Quiet s := by
  rcases h.ready with rfl | ⟨closure, rfl⟩
  · exact .refl _
  · exact ⟨rfl, rfl, rfl⟩

theorem Defines.definable (h : m.Defines x v env s)
    (hm : ∀ waiting ∈ m.stack, waiting.Definable) : checkDefinable x = .ok () := by
  cases h with
  | waiting _ hstack => exact hm (.definition x env) (by simp [hstack])
  | made _ _ _ _ _ hx _ => exact hx

/-- Evaluating a form is quiet, unless the form is a definition that makes a procedure. -/
theorem effect_tail {form : Value} (hk : k.head? ≠ some .call) :
    Effect c ⟨.tail form env, k, d, s⟩ ∧
      Restacks ⟨.tail form env, k, d, s⟩ (step c ⟨.tail form env, k, d, s⟩) := by
  have hstep : step c ⟨.tail form env, k, d, s⟩ = perform (evaluate c form env k) k d s :=
    step_tail hk
  have hcalm (h : Calm (evaluate c form env k) s (Pushes k)) :=
    calm_step (m := ⟨.tail form env, k, d, s⟩) List.suffix_rfl hstep h
  cases form with
  | pair a =>
    cases hform : specialForm? (s.pairAt a).car with
    | none =>
      refine hcalm (.inspect_bind ?_)
      rw [hform]
      exact calm_push trivial
    | some form =>
      by_cases hdefine : form = .define → ∀ forms, s.properList? (s.pairAt a).cdr = some forms →
          defined? s forms = none
      · exact hcalm (.of_eq (evaluate_special hform) (calm_special hdefine))
      · -- What is left is a definition of a procedure, which makes it and binds it in one step.
        push Not at hdefine
        obtain ⟨rfl, operands, hoperands, hparts⟩ := hdefine
        obtain ⟨⟨x, formals, body⟩, hparts⟩ := Option.ne_none_iff_exists'.mp hparts
        have hmove : evaluate c (.pair a) env k s = _ := evaluate_made hform hoperands hparts
        cases hx : checkDefinable x with
        | error e =>
          refine hcalm (.of_eq (hmove.trans ?_) (calm_throw e))
          rw [hx, Action.error_bind]
          rfl
        | ok u =>
          rw [hx, Action.ok_bind] at hmove
          have hmake : Calm (Procedure.make formals body env (some x.name)) s Anything :=
            calm_make formals body (some x.name)
          cases hmade : Procedure.make formals body env (some x.name) s with
          | error e t =>
            refine hcalm ⟨?_, fun next u h => ?_⟩
            · rw [hmove, Action.bind_error hmade]
              exact hmake.of_error hmade
            · rw [hmove, Action.bind_error hmade] at h
              cases h
          | ok v t =>
            rw [Action.bind_ok hmade] at hmove
            refine ⟨.define (.made rfl hk hform hoperands hparts hx hmade), ?_⟩
            rw [hstep, perform_congr hmove]
            exact restacks_perform List.suffix_rfl fun _ _ h => bindDefinition_pushes h
  | symbol x => exact hcalm (calm_giving (calm_lookup x))
  | null => exact hcalm (calm_throw _)
  | _ => exact hcalm calm_pure

theorem effect_nest {form : Value} {rest : Stack} (hrest : rest <:+ m.stack)
    (hstep : m.step c = nest c form env rest d m.store) : Effect c m ∧ m.Restacks (m.step c) := by
  have hnested (hnest : nest c form env rest d m.store =
      if c.maxDepth ≤ d then ⟨.error (.eval (.depthLimit c.maxDepth)), rest, d, m.store⟩
      else ⟨.tail form env, .nested :: rest, d + 1, m.store⟩) :
      Effect c m ∧ m.Restacks (m.step c) := by
    rw [hnest] at hstep
    refine ⟨.quiet ?_, ?_⟩
    · rw [hstep]
      split <;> exact .refl _
    · rw [hstep]
      split
      · exact ⟨[], rest, rfl, hrest, by simp⟩
      · exact ⟨[.nested], rest, rfl, hrest, by simp [Pending.Definable]⟩
  have hother (hnest : nest c form env rest d m.store =
      perform (evaluate c form env rest) rest d m.store)
      (h : Calm (evaluate c form env rest) m.store (Pushes rest)) :
      Effect c m ∧ m.Restacks (m.step c) := calm_step hrest (hstep.trans hnest) h
  cases form with
  | pair a => exact hnested rfl
  | null => exact hnested rfl
  | symbol x => exact hother rfl (calm_giving (calm_lookup x))
  | _ => exact hother rfl calm_pure

def Enters (x : Action Environment) (s : Store) : Prop :=
  (∃ env bindings t, s.Quiet t ∧
    x s = .ok env { t with frames := t.frames.push ⟨bindings, []⟩ }) ∨
    ∃ e t, s.Quiet t ∧ x s = .error e t

theorem Enters.child (env : Environment) (bindings : List (Symbol × Value)) :
    Enters (liftM (Build.child env bindings)) s := .inl ⟨_, bindings, s, .refl s, rfl⟩

theorem Enters.bind {α : Type} {a : Action α} {f : α → Action Environment}
    (ha : Calm a s Anything) (hf : ∀ b t, Enters (f b) t) : Enters (a >>= f) s := by
  cases has : a s with
  | ok b t =>
    obtain ⟨⟨-, hst⟩, -⟩ := ha.of_ok has
    rcases hf b t with ⟨env, bindings, u, htu, hu⟩ | ⟨e, u, htu, hu⟩
    · exact .inl ⟨env, bindings, u, hst.trans htu, (Action.bind_ok has f).trans hu⟩
    · exact .inr ⟨e, u, hst.trans htu, (Action.bind_ok has f).trans hu⟩
  | error e t =>
    obtain ⟨-, hst⟩ := ha.of_error has
    exact .inr ⟨e, t, hst, Action.bind_error has f⟩

theorem calm_except {α : Type} (x : Except Error α) : Calm (liftM x) s Anything :=
  .except trivial fun _ _ => trivial

theorem enters_bind (closure : Closure) (args : List Value) :
    Enters (Procedure.bind closure args) s := by
  unfold Procedure.bind
  split
  · refine .bind (calm_except _) fun bound t => ?_
    cases closure.rest with
    | none => exact .child _ _
    | some rest =>
      refine .bind (anything (keeps_list trivial fun _ _ => trivial)) fun extra t => ?_
      exact .bind (calm_except _) fun bound t => .child _ _
  · exact .inr ⟨_, s, .refl s, rfl⟩

theorem effect_call {a : Address} {args : List Value} :
    Effect c ⟨.apply (.closure a) args, k, d, s⟩ ∧
      Restacks ⟨.apply (.closure a) args, k, d, s⟩
        (step c ⟨.apply (.closure a) args, k, d, s⟩) := by
  have hstep : step c ⟨.apply (.closure a) args, k, d, s⟩ =
      perform (apply c (.closure a) args k) k d s := rfl
  have hmove : apply c (.closure a) args k s = (Procedure.bind (s.closureAt a) args >>= fun env =>
      sequence (s.closureAt a).body env k) s := rfl
  rcases enters_bind (s := s) (s.closureAt a) args with
    ⟨env, bindings, t, hst, hbind⟩ | ⟨e, t, hst, hbind⟩
  · have hsequence : Calm (sequence (s.closureAt a).body env k)
        { t with frames := t.frames.push ⟨bindings, []⟩ } (Pushes k) := calm_sequence _
    rw [Action.bind_ok hbind] at hmove
    rw [perform_congr hmove] at hstep
    have hquiet : { t with frames := t.frames.push ⟨bindings, []⟩ }.Quiet
        (step c ⟨.apply (.closure a) args, k, d, s⟩).store := by
      rw [hstep, perform_store]
      exact hsequence.1.2
    refine ⟨.call rfl hst hquiet, ?_⟩
    rw [hstep]
    exact restacks_perform List.suffix_rfl hsequence.2
  · rw [Action.bind_error hbind] at hmove
    refine ⟨.quiet ?_, ?_⟩
    · rw [hstep, perform_store, hmove]
      exact hst
    · rw [hstep]
      refine restacks_perform List.suffix_rfl fun next u h => ?_
      cases hmove.symm.trans h

theorem calm_escape (id : Nat) (args : List Value) :
    Calm (apply c (.escape id) args k) s (Pushes k) := by
  rcases args with _ | ⟨v, _ | ⟨_, _⟩⟩
  · exact calm_pure
  · exact calm_pure
  · exact calm_throw _

theorem calm_primitive {p : Primitive} {args : List Value}
    (h : p = .control .eval → args = []) :
    Calm (apply c (.primitive p) args k) s (Pushes k) := by
  unfold apply
  dsimp only
  split
  · cases p with
    | routine r => exact calm_giving (anything (keeps_routine trivial r fun _ _ => trivial))
    | control op => exact calm_control fun hop => h (by rw [hop])
  · exact calm_throw _

theorem step_evaluated {form : Value} {more : List Value}
    (h : (Primitive.control .eval).arity.accepts (form :: more).length = true) :
    step c ⟨.apply (.primitive (.control .eval)) (form :: more), k, d, s⟩ =
      perform (Expansion.expandToplevel c.global form >>= fun expanded =>
        pure (.tail expanded c.global, k)) k d s := by
  have hmove : apply c (.primitive (.control .eval)) (form :: more) k s =
      (Expansion.expandToplevel c.global form >>= fun expanded =>
        pure (.tail expanded c.global, k) : Move) s := by
    simp only [apply, h, if_true]
    rfl
  exact perform_congr hmove

theorem step_expanding {form : Value} (h : m.expanding? = some form) :
    (m.step c).store = Action.after (Expansion.expandToplevel c.global form m.store) := by
  obtain ⟨task, k, d, s⟩ := m
  unfold expanding? at h
  split at h
  · rename_i form' more htask
    split_ifs at h with haccepts
    cases h
    cases htask
    rw [step_evaluated haccepts, perform_store]
    cases hexpand : Expansion.expandToplevel c.global form s with
    | ok expanded t =>
      rw [Action.bind_ok hexpand]
      rfl
    | error e t =>
      rw [Action.bind_error hexpand]
      rfl
  · cases h

theorem effect_eval {form : Value} {more : List Value} :
    Effect c ⟨.apply (.primitive (.control .eval)) (form :: more), k, d, s⟩ ∧
      Restacks ⟨.apply (.primitive (.control .eval)) (form :: more), k, d, s⟩
        (step c ⟨.apply (.primitive (.control .eval)) (form :: more), k, d, s⟩) := by
  cases haccepts : (Primitive.control .eval).arity.accepts (form :: more).length with
  | false =>
    have hrefused : Calm (apply c (.primitive (.control .eval)) (form :: more) k) s (Pushes k) := by
      simp only [apply, haccepts]
      exact calm_throw _
    exact calm_step List.suffix_rfl rfl hrefused
  | true =>
    have hform : expanding? ⟨.apply (.primitive (.control .eval)) (form :: more), k, d, s⟩ =
        some form := by
      simp only [expanding?, haccepts, if_true]
    refine ⟨.expand hform (step_expanding hform), ?_⟩
    rw [step_evaluated haccepts]
    refine restacks_perform List.suffix_rfl fun next t h => ?_
    obtain ⟨expanded, u, -, h⟩ := Action.ok_of_bind h
    cases h
    exact .stay _

theorem effect_apply {args : List Value} :
    Effect c ⟨.apply f args, k, d, s⟩ ∧
      Restacks ⟨.apply f args, k, d, s⟩ (step c ⟨.apply f args, k, d, s⟩) := by
  have hcalm (h : Calm (apply c f args k) s (Pushes k)) :=
    calm_step (m := ⟨.apply f args, k, d, s⟩) (c := c) List.suffix_rfl rfl h
  cases f with
  | primitive p =>
    by_cases heval : p = .control .eval ∧ args ≠ []
    · obtain ⟨rfl, hargs⟩ := heval
      obtain ⟨form, more, rfl⟩ := List.exists_cons_of_ne_nil hargs
      exact effect_eval
    · exact hcalm (calm_primitive fun hp => by_contra fun hargs => heval ⟨hp, hargs⟩)
  | escape id => exact hcalm (calm_escape id args)
  | closure a => exact effect_call
  | _ => exact hcalm (calm_complain _ _)

theorem assign_eq {x : Symbol} {env : Environment} : Action.assign env x v s =
    match s.resolve? env x with
    | some (f, key) => .ok () (s.bind f key v)
    | none => .error (.unbound x.name) s := by
  unfold Action.assign
  rw [Action.inspect_bind]
  cases s.resolve? env x <;> rfl

theorem effect_value {waiting : Pending} :
    Effect c ⟨.value v, waiting :: k, d, s⟩ ∧
      Restacks ⟨.value v, waiting :: k, d, s⟩ (step c ⟨.value v, waiting :: k, d, s⟩) := by
  have hpop := List.suffix_cons waiting k
  have hcalm (h : Calm (resume c v waiting k) s (Pushes k)) :=
    calm_step (m := ⟨.value v, waiting :: k, d, s⟩) (c := c) hpop rfl h
  cases waiting with
  | definition x env =>
    exact ⟨.define (.waiting rfl rfl),
      restacks_perform (m := ⟨.value v, .definition x env :: k, d, s⟩) hpop
        fun _ _ h => bindDefinition_pushes h⟩
  | assignment x env =>
    have hmove : resume c v (.assignment x env) k s =
        (Action.assign env x v >>= fun _ => giveValue .unspecified k) s := rfl
    have hassign : Action.assign env x v s = _ := assign_eq
    cases hresolve : s.resolve? env x with
    | none =>
      rw [hresolve] at hassign
      exact hcalm (.of_eq (hmove.trans (Action.bind_error hassign _)) (calm_throw _))
    | some slot =>
      obtain ⟨f, key⟩ := slot
      rw [hresolve] at hassign
      rw [Action.bind_ok hassign] at hmove
      refine ⟨.assign ⟨x, env, k, rfl, rfl, hresolve⟩ ?_,
        restacks_perform (m := ⟨.value v, .assignment x env :: k, d, s⟩) hpop fun next t h => ?_⟩
      · exact (perform_store _ k _ s).trans (congrArg Action.after hmove)
      · cases hmove.symm.trans h
        exact .stay _
  | _ => exact hcalm (calm_resume nofun nofun)

theorem step_effect (c : Context) (m : Machine) : Effect c m ∧ m.Restacks (m.step c) := by
  obtain ⟨task, k, d, s⟩ := m
  cases task with
  | eval form env => exact effect_nest List.suffix_rfl rfl
  | tail form env =>
    cases k with
    | nil => exact effect_tail nofun
    | cons waiting k =>
      cases waiting with
      | call => exact effect_nest (List.suffix_cons _ _) rfl
      | _ => exact effect_tail nofun
  | apply f args => exact effect_apply
  | template v env level => exact calm_step List.suffix_rfl rfl (calm_template v level)
  | value v =>
    cases k with
    | nil => exact still_step rfl List.suffix_rfl
    | cons waiting k => exact effect_value
  | escape id v =>
    cases k with
    | nil => exact still_step rfl List.suffix_rfl
    | cons waiting k =>
      have hpop := List.suffix_cons waiting k
      cases waiting with
      | capture target =>
        refine still_step ?_ ?_
        · simp only [step]
          split <;> rfl
        · simp only [step]
          split <;> exact hpop
      | _ => exact still_step rfl hpop
  | error e =>
    cases k with
    | nil => exact still_step rfl List.suffix_rfl
    | cons waiting k => exact still_step rfl (List.suffix_cons _ _)

end Machine

end HygienicScheme
