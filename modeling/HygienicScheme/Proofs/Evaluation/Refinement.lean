import HygienicScheme.Proofs.Evaluation.Direct
import Mathlib.Logic.Function.Iterate

/-!
# The machine refines the direct semantics

A run of the machine that ends has to empty the stack it began with, so what its task comes to is
handed to that stack on the way (`Yields`). By strong induction on the number of steps, what is
handed over is what the direct semantics gives for the task. Only the depth limit has no place in
that semantics; nothing catches its error, so a run that ends otherwise never met it.
-/
namespace HygienicScheme

def Result.task : Result → Task
  | value v => .value v
  | escape id v => .escape id v
  | error e => .error e

namespace Machine

variable {c : Context} {n : Nat} {m : Machine} {g : Goal} {r : Result} {s s' : Store}
  {k k' : Stack} {d : Nat}

def Ends (c : Context) (n : Nat) (m : Machine) (r : Result) (s : Store) : Prop :=
  ∃ d, (step c)^[n] m = ⟨r.task, [], d, s⟩

inductive Receives : Stack → Stack → Prop
  | whole (k : Stack) : Receives k k
  | call (k : Stack) : Receives (.call :: k) k

def Yields (c : Context) (n : Nat) (k : Stack) (g : Goal) (s : Store) (m : Machine) : Prop :=
  ∀ r s', r ≠ .error (.eval (.depthLimit c.maxDepth)) → Ends c n m r s' →
    ∃ j ≤ n, ∃ r₁ s₁ d₁ k₁, Direct c g s r₁ s₁ ∧ Receives k k₁ ∧
      Ends c j ⟨r₁.task, k₁, d₁, s₁⟩ r s'

theorem Ends.step {waiting : Pending} {task : Task}
    (h : Ends c n ⟨task, waiting :: k, d, s⟩ r s') :
    ∃ j, n = j + 1 ∧ Ends c j (Machine.step c ⟨task, waiting :: k, d, s⟩) r s' := by
  cases n with
  | zero =>
    obtain ⟨d', h⟩ := h
    simp at h
  | succ j => exact ⟨j, rfl, h⟩

theorem Ends.of_error {e : Error} (h : Ends c n ⟨.error e, k, d, s⟩ r s') : r = .error e := by
  induction k generalizing n d with
  | nil =>
    obtain ⟨d', h⟩ := h
    have hfix : Machine.step c ⟨.error e, [], d, s⟩ = ⟨.error e, [], d, s⟩ := rfl
    rw [Function.iterate_fixed hfix] at h
    cases r <;> cases h
    rfl
  | cons waiting k ih =>
    obtain ⟨j, -, h⟩ := h.step
    exact ih h

namespace Yields

theorem done_of (hk : Receives k' k) (h : Direct c g s r s') :
    Yields c n k' g s ⟨r.task, k, d, s'⟩ :=
  fun _ _ _ hends => ⟨n, Nat.le_refl n, r, s', d, k, h, hk, hends⟩

theorem done (h : Direct c g s r s') : Yields c n k g s ⟨r.task, k, d, s'⟩ :=
  done_of (.whole k) h

theorem of_goal {g g' : Goal} {t : Store} (h : Yields c n k g s m)
    (hg : ∀ {r s'}, Direct c g s r s' → Direct c g' t r s') : Yields c n k g' t m := by
  intro r s' hr hends
  obtain ⟨j, hj, r₁, s₁, d₁, k₁, hdirect, hk, hrest⟩ := h r s' hr hends
  exact ⟨j, hj, r₁, s₁, d₁, k₁, hg hdirect, hk, hrest⟩

theorem depthLimit : Yields c n k g s ⟨.error (.eval (.depthLimit c.maxDepth)), k', d, s'⟩ :=
  fun _ _ hr hends => absurd hends.of_error hr

theorem nested (hk : Receives k' k) (h : Yields c n (.nested :: k) g s m) :
    Yields c n k' g s m := by
  intro r s' hr hends
  obtain ⟨j, hj, r₁, s₁, d₁, k₁, hdirect, hk₁, hends'⟩ := h r s' hr hends
  cases hk₁
  obtain ⟨i, rfl, hrest⟩ := hends'.step
  refine ⟨i, Nat.le_of_succ_le hj, r₁, s₁, d₁ - 1, k, hdirect, hk, ?_⟩
  cases r₁ <;> exact hrest

theorem called (h : Yields c n (.call :: k) g s m) : Yields c n k g s m := by
  intro r s' hr hends
  obtain ⟨j, hj, r₁, s₁, d₁, k₁, hdirect, hk, hends'⟩ := h r s' hr hends
  cases hk with
  | call => exact ⟨j, hj, r₁, s₁, d₁, k, hdirect, .whole k, hends'⟩
  | whole =>
    obtain ⟨i, rfl, hrest⟩ := hends'.step
    refine ⟨i, Nat.le_of_succ_le hj, r₁, s₁, d₁, k, hdirect, .whole k, ?_⟩
    cases r₁ <;> exact hrest

theorem andThen {waiting : Pending} {next : Value → Goal}
    (h : Yields c n (waiting :: k) g s m) (hw : waiting ≠ .call ∧ ∀ id, waiting ≠ .capture id)
    (hnext : ∀ j < n, ∀ v s₁ d₁,
      Yields c j k (next v) s₁ (perform (resume c v waiting k) k d₁ s₁)) :
    Yields c n k (.andThen g next) s m := by
  intro r s' hr hends
  obtain ⟨j, hj, r₁, s₁, d₁, k₁, hdirect, hk, hends'⟩ := h r s' hr hends
  obtain rfl : k₁ = waiting :: k := by
    cases hk with
    | whole => rfl
    | call => exact absurd rfl hw.1
  obtain ⟨i, rfl, hrest⟩ := hends'.step
  cases r₁ with
  | value v =>
    obtain ⟨i', hi', r₂, s₂, d₂, k₂, hdirect', hk₂, hrest'⟩ := hnext i hj v s₁ _ r s' hr hrest
    exact ⟨i', by omega, r₂, s₂, d₂, k₂, .andThen_value hdirect hdirect', hk₂, hrest'⟩
  | escape id v =>
    refine ⟨i, Nat.le_of_succ_le hj, .escape id v, s₁, depthWithout waiting d₁, k,
      .andThen_escape hdirect, .whole k, ?_⟩
    cases waiting with
    | capture id => exact absurd rfl (hw.2 id)
    | _ => exact hrest
  | error e =>
    exact ⟨i, Nat.le_of_succ_le hj, .error e, s₁, depthWithout waiting d₁, k,
      .andThen_error hdirect, .whole k, hrest⟩

theorem catching {id : Nat} (h : Yields c n (.capture id :: k) g s m) :
    Yields c n k (.catching id g) s m := by
  intro r s' hr hends
  obtain ⟨j, hj, r₁, s₁, d₁, k₁, hdirect, hk, hends'⟩ := h r s' hr hends
  cases hk
  obtain ⟨i, rfl, hrest⟩ := hends'.step
  cases r₁ with
  | value v =>
    exact ⟨i, Nat.le_of_succ_le hj, .value v, s₁, d₁, k, .catching_other hdirect (by simp),
      .whole k, hrest⟩
  | error e =>
    exact ⟨i, Nat.le_of_succ_le hj, .error e, s₁, d₁, k, .catching_other hdirect (by simp),
      .whole k, hrest⟩
  | escape target v =>
    simp only [Machine.step, Result.task] at hrest
    split at hrest
    case isTrue heq =>
      rw [← beq_iff_eq.mp heq] at hdirect
      exact ⟨i, Nat.le_of_succ_le hj, .value v, s₁, d₁, k, .catching_own hdirect, .whole k, hrest⟩
    case isFalse hne =>
      refine ⟨i, Nat.le_of_succ_le hj, .escape target v, s₁, d₁, k,
        .catching_other hdirect ?_, .whole k, hrest⟩
      rintro w hw
      cases hw
      exact hne (beq_self_eq_true _)

theorem doing {α : Type} {a : Action α} {next : α → Goal} {move : α → Move}
    (h : ∀ x s₁, a s = .ok x s₁ → Yields c n k (next x) s₁ (perform (move x) k d s₁)) :
    Yields c n k (.doing a next) s (perform (a >>= move) k d s) := by
  cases ha : a s with
  | ok x s₁ =>
    have hperform : perform (a >>= move) k d s = perform (move x) k d s₁ := by
      simp [perform, bind, EStateM.bind, ha]
    rw [hperform]
    exact (h x s₁ ha).of_goal fun hdirect => .doing_ok ha hdirect
  | error e s₁ =>
    have hperform : perform (a >>= move) k d s = ⟨.error e, k, d, s₁⟩ := by
      simp [perform, bind, EStateM.bind, ha]
    rw [hperform]
    exact .done (.doing_error ha)

theorem give {a : Action Value} :
    Yields c n k (.doing a .done) s (perform (a >>= fun v => giveValue v k) k d s) :=
  .doing fun _ _ _ => .done .done

end Yields

structure Refines (c : Context) (n : Nat) : Prop where
  eval : ∀ {form env k d s}, Yields c n k (.eval form env) s ⟨.eval form env, k, d, s⟩
  tail : ∀ {form env k d s}, Yields c n k (.eval form env) s ⟨.tail form env, k, d, s⟩
  apply : ∀ {f args k d s}, Yields c n k (.apply f args) s ⟨.apply f args, k, d, s⟩
  template : ∀ {v env level k d s},
    Yields c n k (.template v env level) s ⟨.template v env level, k, d, s⟩

theorem modify_push {α : Type} (xs : Array α) (x : α) (f : α → α) :
    (xs.push x).modify xs.size f = xs.push (f x) := by
  apply Array.ext
  · simp
  · intro i hi hi'
    rw [Array.size_modify, Array.size_push] at hi
    simp only [Array.getElem_modify, Array.getElem_push]
    split <;> split <;> first | rfl | omega

theorem make_named (formals : Value) (body : List Value) (env : Environment) (x : Symbol) :
    Procedure.make formals body env (some x.name) =
      Procedure.make formals body env none >>= fun v =>
        Reference.name x v >>= fun _ => pure v := by
  unfold Procedure.make
  split
  · rfl
  · funext s
    simp only [Action.inspect, bind, EStateM.bind]
    cases Procedure.formals s formals with
    | error e => rfl
    | ok parsed =>
      obtain ⟨params, rest⟩ := parsed
      have hname := modify_push s.closures ⟨params, rest, body, env, none⟩
        fun closure => { closure with name := some x.name }
      change EStateM.Result.ok _ { s with closures := s.closures.push _ } =
        EStateM.Result.ok _ { s with closures := (s.closures.push _).modify s.closures.size _ }
      rw [hname]

def defineMove (c : Context) (env : Environment) (k : Stack) : Reference.Definition → Move
  | .expression x form => do
    match ← Action.inspect (lambdaParts? · form) with
    | some (formals, body) =>
      bindDefinition c x (← Procedure.make formals body env (some x.name)) env k
    | none => return (.eval form env, .definition x env :: k)
  | .procedure x formals body => do
    bindDefinition c x (← Procedure.make formals body env (some x.name)) env k

theorem bindDefinition_eq (c : Context) (x : Symbol) (v : Value) (env : Environment) (k : Stack) :
    bindDefinition c x v env k = Reference.bind c x env v >>= fun w => giveValue w k := by
  unfold bindDefinition Reference.bind
  split <;> simp

theorem define_eq (c : Context) (operands : List Value) (env : Environment) (k : Stack) :
    define c operands env k = Reference.Definition.read operands >>= defineMove c env k := by
  cases operands with
  | nil => rfl
  | cons v rest =>
    cases v with
    | symbol x =>
      rcases rest with _ | ⟨form, _ | ⟨_, _⟩⟩
      · rfl
      · simp only [define, Reference.Definition.read, bind_assoc, pure_bind]
        rfl
      · rfl
    | pair a =>
      simp only [define, Reference.Definition.read, bind_assoc]
      congr 1
      funext header
      cases header.car with
      | symbol x => simp only [bind_assoc, pure_bind, defineMove]
      | _ => rfl
    | _ => rfl
section Moves

variable {form f v : Value} {env : Environment} {j : Nat} (ih : ∀ j < n, Refines c j)

include ih

theorem sequence_yields {forms : List Value} (hj : j < n) :
    Yields c j k (.sequence forms env) s (perform (sequence forms env k) k d s) := by
  induction forms generalizing j d s with
  | nil => exact .done .sequence_none
  | cons form more hmore =>
    cases more with
    | nil => exact (ih j hj).tail.of_goal .sequence_last
    | cons next more =>
      refine Yields.of_goal ?_ .sequence_more
      exact (ih j hj).eval.andThen (by simp) fun i hi _ _ _ => hmore (by omega)

theorem conjunction_yields {forms : List Value} (hj : j < n) :
    Yields c j k (.conjunction forms env) s (perform (conjunction forms env k) k d s) := by
  induction forms generalizing j d s with
  | nil => exact .done .conjunction_none
  | cons form more hmore =>
    cases more with
    | nil => exact (ih j hj).tail.of_goal .conjunction_last
    | cons next more =>
      refine Yields.of_goal ?_ .conjunction_more
      refine (ih j hj).eval.andThen (by simp) fun i hi v _ _ => ?_
      rw [resume]
      split
      · exact hmore (by omega)
      · exact .done .done

theorem disjunction_yields {forms : List Value} (hj : j < n) :
    Yields c j k (.disjunction forms env) s (perform (disjunction forms env k) k d s) := by
  induction forms generalizing j d s with
  | nil => exact .done .disjunction_none
  | cons form more hmore =>
    cases more with
    | nil => exact (ih j hj).tail.of_goal .disjunction_last
    | cons next more =>
      refine Yields.of_goal ?_ .disjunction_more
      refine (ih j hj).eval.andThen (by simp) fun i hi v _ _ => ?_
      rw [resume]
      split
      · exact .done .done
      · exact hmore (by omega)

theorem arguments_yields {done more : List Value} (hj : j < n) :
    Yields c j k (.call f done more env) s (perform (arguments f done more env k) k d s) := by
  induction more generalizing j d s done with
  | nil => exact (ih j hj).apply.of_goal .call_last
  | cons form more hmore =>
    refine Yields.of_goal ?_ .call_more
    exact (ih j hj).eval.andThen (by simp) fun i hi _ _ _ => hmore (by omega)

omit ih in
theorem perform_properList (operands : Value) (move : Option (List Value) → Move) :
    perform (Action.properList? operands >>= move) k d s =
      perform (move (s.properList? operands)) k d s := rfl

omit ih in
theorem perform_inspect {α : Type} (look : Store → α) (move : α → Move) :
    perform (Action.inspect look >>= move) k d s = perform (move (look s)) k d s := rfl

omit ih in
theorem lambda_direct {formals : Value} {body : List Value}
    (h : lambdaParts? s form = some (formals, body))
    (hmake : Direct c (.doing (Procedure.make formals body env none) .done) s r s') :
    Direct c (.eval form env) s r s' := by
  unfold lambdaParts? at h
  split at h
  case h_2 => cases h
  case h_1 head formals' body' hlist =>
    split at h
    case isFalse => cases h
    case isTrue hhead =>
      obtain ⟨rfl, rfl⟩ := Prod.mk.inj (Option.some.inj h)
      obtain ⟨hname, hstamp⟩ := Bool.and_eq_true_iff.mp hhead
      obtain ⟨a, rfl⟩ : ∃ a, form = .pair a := by
        cases form with
        | pair a => exact ⟨a, rfl⟩
        | _ => cases hlist
      obtain ⟨hcar, hcdr⟩ := Store.properList?_pair.mp hlist
      have hform : specialForm? (s.pairAt a).car = some .lambda := by
        rw [← hcar]
        simp only [specialForm?, SpecialForm.ofSymbol?, beq_iff_eq.mp hname]
        simp_all [SpecialForm.ofName?]
      exact .form hform (.doing_ok (Reference.properItems_some hcdr) (.lambda hmake))

omit ih in
theorem andThen_of_make {formals : Value} {body : List Value} {next : Value → Goal}
    (hparts : lambdaParts? s form = some (formals, body))
    (h : Direct c (.doing (Procedure.make formals body env none) next) s r s') :
    Direct c (.andThen (.eval form env) next) s r s' := by
  cases h with
  | doing_ok hmake hnext =>
    exact .andThen_value (lambda_direct hparts (.doing_ok hmake .done)) hnext
  | doing_error hmake => exact .andThen_error (lambda_direct hparts (.doing_error hmake))

omit ih in
theorem makeNamed_yields {formals : Value} {body : List Value} {x : Symbol} :
    Yields c n k (.doing (Procedure.make formals body env none) fun v =>
        .doing (Reference.bindNamed c x env v) .done) s
      (perform (Procedure.make formals body env (some x.name) >>= fun v =>
        bindDefinition c x v env k) k d s) := by
  have hmove : (Procedure.make formals body env (some x.name) >>= fun v =>
      bindDefinition c x v env k) =
      Procedure.make formals body env none >>= fun v =>
        Reference.bindNamed c x env v >>= fun w => giveValue w k := by
    simp only [make_named, bindDefinition_eq, Reference.bindNamed, bind_assoc, pure_bind]
  rw [hmove]
  exact .doing fun v s₁ _ => .give

theorem define_yields {operands : List Value} (hj : j < n) :
    Yields c j k (.special .define operands env) s (perform (define c operands env k) k d s) := by
  rw [define_eq]
  refine Yields.of_goal (Yields.doing fun definition s₁ _ => ?_) .define
  cases definition with
  | procedure x formals body => exact makeNamed_yields
  | expression x form =>
    rw [defineMove, perform_inspect]
    refine Yields.of_goal ?_ (.doing_ok rfl)
    cases hparts : lambdaParts? s₁ form with
    | none =>
      simp only [Reference.isLambda, hparts]
      refine (ih j hj).eval.andThen (by simp) fun i hi v s₂ d₂ => ?_
      rw [resume, bindDefinition_eq]
      exact .give
    | some parts =>
      simp only [Reference.isLambda, hparts]
      exact makeNamed_yields.of_goal (andThen_of_make hparts)

omit ih in
theorem properItems_yields {v : Value} {complaint : Store → Error} {next : List Value → Goal}
    {move : Option (List Value) → Move} (hnone : s.properList? v = none →
      perform (move none) k d s = ⟨.error (complaint s), k, d, s⟩)
    (hsome : ∀ items, s.properList? v = some items →
      Yields c n k (next items) s (perform (move (some items)) k d s)) :
    Yields c n k (.doing (Reference.properItems v complaint) next) s
      (perform (Action.properList? v >>= move) k d s) := by
  rw [perform_properList]
  cases hlist : s.properList? v with
  | none =>
    rw [hnone hlist]
    exact .done (.doing_error (Reference.properItems_none hlist))
  | some items =>
    exact (hsome items hlist).of_goal fun h => .doing_ok (Reference.properItems_some hlist) h

theorem special_yields {form : SpecialForm} {operands : Value} (hj : j < n) :
    Yields c j k (.doing (Reference.specialOperands form operands) (.special form · env)) s
      (perform (special c form operands env k) k d s) := by
  refine properItems_yields (fun _ => rfl) fun items _ => ?_
  cases form with
  | quote =>
    rcases items with _ | ⟨v, _ | ⟨_, _⟩⟩
    · exact .done (.problem rfl)
    · exact .done .quote
    · exact .done (.problem rfl)
  | quasiquote =>
    rcases items with _ | ⟨v, _ | ⟨_, _⟩⟩
    · exact .done (.problem rfl)
    · exact (ih j hj).template.of_goal .quasiquote
    · exact .done (.problem rfl)
  | unquote => exact .done (.problem rfl)
  | lambda =>
    rcases items with _ | ⟨formals, body⟩
    · exact .done (.problem rfl)
    · exact Yields.give.of_goal .lambda
  | conditional =>
    rcases items with _ | ⟨test, _ | ⟨consequent, _ | ⟨alternative, _ | ⟨_, _⟩⟩⟩⟩
    · exact .done (.problem rfl)
    · exact .done (.problem rfl)
    · refine Yields.of_goal ?_ .conditional_one
      refine (ih j hj).eval.andThen (by simp) fun i hi v s₁ d₁ => ?_
      rw [resume]
      split
      · exact (ih i (by omega)).tail
      · exact .done .done
    · refine Yields.of_goal ?_ .conditional
      refine (ih j hj).eval.andThen (by simp) fun i hi v s₁ d₁ => ?_
      rw [resume]
      split
      · exact (ih i (by omega)).tail
      · exact (ih i (by omega)).tail
    · exact .done (.problem rfl)
  | define => exact define_yields ih hj
  | assign =>
    rcases items with _ | ⟨v, _ | ⟨form, _ | ⟨_, _⟩⟩⟩
    · exact .done (.problem rfl)
    · cases v <;> exact .done (.problem rfl)
    · cases v with
      | symbol x =>
        refine Yields.of_goal ?_ .assign
        refine (ih j hj).eval.andThen (by simp) fun i hi v s₁ d₁ => ?_
        have hmove : resume c v (.assignment x env) k =
            Reference.assign x env v >>= fun w => giveValue w k := by
          simp only [resume, Reference.assign, bind_assoc, pure_bind]
        rw [hmove]
        exact .give
      | _ => exact .done (.problem rfl)
    · cases v <;> exact .done (.problem rfl)
  | sequence => exact (sequence_yields ih hj).of_goal .sequence
  | conjunction => exact (conjunction_yields ih hj).of_goal .conjunction
  | disjunction => exact (disjunction_yields ih hj).of_goal .disjunction
  | defineSyntax => exact .done .defineSyntax
  | letSyntax => exact .done (.problem rfl)

theorem evaluate_yields (hj : j < n) :
    Yields c j k (.eval form env) s (perform (evaluate c form env k) k d s) := by
  cases form with
  | symbol x => exact Yields.give.of_goal .symbol
  | null => exact .done .empty
  | pair a =>
    rw [evaluate, perform_inspect]
    cases hform : specialForm? (s.pairAt a).car with
    | some form => exact (special_yields ih hj).of_goal (.form hform)
    | none =>
      refine Yields.of_goal ?_ (.application hform)
      refine (ih j hj).eval.andThen (by simp) fun i hi f s₁ d₁ => ?_
      exact properItems_yields (fun _ => rfl) fun forms _ => arguments_yields ih (by omega)
  | _ => exact .done (.constant (by simp) (by simp) (by simp))

theorem nest_yields (hk : Receives k' k) (hj : j < n) :
    Yields c j k' (.eval form env) s (nest c form env k d s) := by
  have hlist : Yields c j k' (.eval form env) s
      (if c.maxDepth ≤ d then ⟨.error (.eval (.depthLimit c.maxDepth)), k, d, s⟩
        else ⟨.tail form env, .nested :: k, d + 1, s⟩) := by
    split
    · exact .depthLimit
    · exact (ih j hj).tail.nested hk
  cases form with
  | pair a => exact hlist
  | null => exact hlist
  | symbol x =>
    cases hx : Action.lookup env x s with
    | ok v s₁ =>
      have hstep : nest c (.symbol x) env k d s = ⟨.value v, k, d, s₁⟩ := by
        simp [nest, perform, evaluate, bind, EStateM.bind, hx, giveValue, pure, EStateM.pure]
      rw [hstep]
      exact .done_of hk (.symbol (.doing_ok hx .done))
    | error e s₁ =>
      have hstep : nest c (.symbol x) env k d s = ⟨.error e, k, d, s₁⟩ := by
        simp [nest, perform, evaluate, bind, EStateM.bind, hx]
      rw [hstep]
      exact .done_of hk (.symbol (.doing_error hx))
  | _ => exact .done_of hk (.constant (by simp) (by simp) (by simp))

theorem map_yields {columns : List (List Value)} {done : List Value} (hj : j < n) :
    Yields c j k (.map f columns done) s (perform (map f columns done k) k d s) := by
  induction j using Nat.strongRecOn generalizing columns done d s with
  | ind j hmore =>
    unfold map
    cases hrow : nextRow? columns with
    | none => exact Yields.give.of_goal (.map_end hrow)
    | some row =>
      refine Yields.of_goal ?_ (.map_row hrow)
      refine ((ih j hj).apply.called).andThen (by simp) fun i hi v s₁ d₁ => ?_
      exact hmore i hi (by omega)

theorem forEach_yields {columns : List (List Value)} (hj : j < n) :
    Yields c j k (.forEach f columns) s (perform (forEach f columns k) k d s) := by
  induction j using Nat.strongRecOn generalizing columns d s with
  | ind j hmore =>
    unfold forEach
    cases hrow : nextRow? columns with
    | none => exact .done (.forEach_end hrow)
    | some row =>
      refine Yields.of_goal ?_ (.forEach_row hrow)
      refine ((ih j hj).apply.called).andThen (by simp) fun i hi v s₁ d₁ => ?_
      exact hmore i hi (by omega)

theorem nestedTemplate_yields {keyword : QuasiKeyword} {operand : Value} {level : Nat}
    (hj : j < n) (hquasi : s.quasiForm? v = some (keyword, operand))
    (hk : keyword = .quasiquote ∨ level ≠ 1) :
    Yields c j k (.template v env level) s
      ⟨.template operand env (Reference.innerLevel keyword level), .quasiForm keyword :: k, d,
        s⟩ := by
  refine Yields.of_goal ?_ (.template_nested hquasi hk)
  exact (ih j hj).template.andThen (by simp) fun i hi w s₁ d₁ => .give

theorem templateForm_yields {keyword : QuasiKeyword} {operand : Value} {level : Nat}
    (hj : j < n) (hquasi : s.quasiForm? v = some (keyword, operand)) :
    Yields c j k (.template v env level) s
      (perform (templateForm keyword operand env level k) k d s) := by
  cases keyword with
  | quasiquote => exact nestedTemplate_yields ih hj hquasi (.inl rfl)
  | unquote =>
    by_cases hlevel : level = 1
    · subst hlevel
      exact (ih j hj).eval.of_goal (.template_unquote hquasi)
    · simp only [templateForm, if_neg hlevel]
      exact nestedTemplate_yields ih hj hquasi (.inr hlevel)
  | unquoteSplicing =>
    by_cases hlevel : level = 1
    · subst hlevel
      exact .done (.template_misplaced hquasi)
    · simp only [templateForm, if_neg hlevel]
      exact nestedTemplate_yields ih hj hquasi (.inr hlevel)

theorem splice_yields {a : Address} {operand : Value} (hj : j < n)
    (hquasi : s.quasiForm? (.pair a) = none)
    (hsplice : splice? s (s.pairAt a).car = some operand) :
    Yields c j k (.template (.pair a) env 1) s
      ⟨.eval operand env, .quasiSplice (s.pairAt a).cdr env 1 :: k, d, s⟩ := by
  refine Yields.of_goal ?_ (.template_splice hquasi hsplice)
  refine (ih j hj).eval.andThen (by simp) fun i hi v s₁ d₁ => ?_
  refine properItems_yields (fun _ => rfl) fun items _ => ?_
  exact (ih i (by omega)).template.andThen (by simp) fun _ _ _ _ _ => .give

theorem templatePair_yields {a : Address} {level : Nat} (hj : j < n)
    (hquasi : s.quasiForm? (.pair a) = none)
    (hsplice : level = 1 → splice? s (s.pairAt a).car = none) :
    Yields c j k (.template (.pair a) env level) s
      ⟨.template (s.pairAt a).car env level, .quasiRest (s.pairAt a).cdr env level :: k, d, s⟩ := by
  refine Yields.of_goal ?_ (.template_pair hquasi hsplice)
  refine (ih j hj).template.andThen (by simp) fun i hi v s₁ d₁ => ?_
  exact (ih i (by omega)).template.andThen (by simp) fun _ _ _ _ _ => .give

theorem template_yields {level : Nat} (hj : j < n) :
    Yields c j k (.template v env level) s (perform (template v env level k) k d s) := by
  cases v with
  | pair a =>
    rw [template, perform_inspect]
    cases hquasi : s.quasiForm? (.pair a) with
    | some q => exact templateForm_yields ih hj hquasi
    | none =>
      by_cases hlevel : level = 1
      · subst hlevel
        simp only [if_true, perform_inspect]
        cases hsplice : splice? s (s.pairAt a).car with
        | some operand => exact splice_yields ih hj hquasi hsplice
        | none => exact templatePair_yields ih hj hquasi fun _ => hsplice
      · simp only [if_neg hlevel, perform_inspect]
        exact templatePair_yields ih hj hquasi fun heq => absurd heq hlevel
  | vector a =>
    rw [template, perform_inspect]
    refine Yields.of_goal (Yields.doing fun list s₁ _ => ?_) .template_vector
    refine (ih j hj).template.andThen (by simp) fun i hi w s₂ d₂ => ?_
    have hmove : resume c w .quasiVector k =
        Reference.vectorOfList w >>= fun v => giveValue v k := by
      simp only [resume, Reference.vectorOfList, bind_assoc]
    rw [hmove]
    exact .give
  | _ => exact .done (.template_atom (by simp) (by simp))

theorem applySpread_yields {more : List Value} (hj : j < n) :
    Yields c j k (.control .apply (f :: more)) s
      (perform (control c .apply (f :: more) k) k d s) := by
  simp only [control]
  cases hlast : more.getLast? with
  | none =>
    rw [List.getLast?_eq_none_iff] at hlast
    subst hlast
    exact (ih j hj).apply.of_goal .apply_none
  | some last =>
    refine Yields.of_goal ?_ (.apply_spread hlast)
    exact .doing fun spread s₁ _ => (ih j hj).apply

theorem capture_yields {op : Control} (hop : op = .callWithCurrentContinuation ∨ op = .callCC)
    (hj : j < n) : Yields c j k (.control op [f]) s (perform (capture f k) k d s) := by
  refine Yields.of_goal ?_ (.capture hop)
  exact ((ih j hj).apply.called).catching

omit ih in
theorem settle_eq (a : Address) (v : Value) (k : Stack) :
    settle a v k = Reference.keep a v >>= fun w => giveValue w k := by
  simp only [settle, Reference.keep, bind_assoc]
  congr 1
  funext promise
  cases promise with
  | delayed thunk => simp only [bind_assoc, pure_bind]
  | forced w => simp only [pure_bind]

theorem force_yields {a : Address} (hj : j < n) :
    Yields c j k (.control .force [.promise a]) s (perform (force a k) k d s) := by
  rw [force, perform_inspect]
  cases ha : s.promiseAt a with
  | forced v => exact .done (.force_forced ha)
  | delayed thunk =>
    refine Yields.of_goal ?_ (.force_delayed ha)
    refine ((ih j hj).apply.called).andThen (by simp) fun i hi v s₁ d₁ => ?_
    rw [resume, settle_eq]
    exact .give

omit ih in
theorem output_eq (procedure : String) (text : Store → String) (target : List Value) (k : Stack) :
    (do
      checkOutput procedure target
      emit (← Action.inspect text)
      giveValue .unspecified k) =
      Reference.output procedure text target >>= fun w => giveValue w k := by
  simp only [Reference.output, bind_assoc, pure_bind]

theorem control_yields {op : Control} {args : List Value} (hargs : op.arity.accepts args.length)
    (hj : j < n) :
    Yields c j k (.control op args) s (perform (control c op args k) k d s) := by
  cases op with
  | apply =>
    rcases args with _ | ⟨f, more⟩
    · cases hargs
    · exact applySpread_yields ih hj
  | map =>
    rcases args with _ | ⟨f, lists⟩
    · cases hargs
    · refine Yields.of_goal ?_ .map
      exact .doing fun columns s₁ _ => map_yields ih hj
  | forEach =>
    rcases args with _ | ⟨f, lists⟩
    · cases hargs
    · refine Yields.of_goal ?_ .forEach
      exact .doing fun columns s₁ _ => forEach_yields ih hj
  | callWithCurrentContinuation =>
    rcases args with _ | ⟨f, _ | ⟨_, _⟩⟩
    · cases hargs
    · exact capture_yields ih (.inl rfl) hj
    · simp [Control.arity, Arity.accepts] at hargs
  | callCC =>
    rcases args with _ | ⟨f, _ | ⟨_, _⟩⟩
    · cases hargs
    · exact capture_yields ih (.inr rfl) hj
    · simp [Control.arity, Arity.accepts] at hargs
  | eval =>
    rcases args with _ | ⟨form, rest⟩
    · cases hargs
    · refine Yields.of_goal ?_ .eval
      exact .doing fun form s₁ _ => (ih j hj).tail
  | force =>
    rcases args with _ | ⟨v, _ | ⟨_, _⟩⟩
    · cases hargs
    · cases v with
      | promise a => exact force_yields ih hj
      | _ => exact .done (.force_value (by simp))
    · simp [Control.arity, Arity.accepts] at hargs
  | display =>
    rcases args with _ | ⟨v, target⟩
    · cases hargs
    · rw [control, output_eq]
      exact Yields.give.of_goal .display
  | write =>
    rcases args with _ | ⟨v, target⟩
    · cases hargs
    · rw [control, Action.writeText, output_eq]
      exact Yields.give.of_goal .write
  | newline =>
    have hmove : control c .newline args k =
        Reference.output "newline" (fun _ => "\n") args >>= fun w => giveValue w k := by
      simp only [control, Reference.output, bind_assoc, pure_bind]
      rfl
    rw [hmove]
    exact Yields.give.of_goal .newline
  | currentOutputPort =>
    rcases args with _ | ⟨_, _⟩
    · exact .done .currentOutputPort
    · simp [Control.arity, Arity.accepts] at hargs

theorem apply_yields {args : List Value} (hj : j < n) :
    Yields c j k (.apply f args) s (perform (apply c f args k) k d s) := by
  cases f with
  | primitive p =>
    simp only [apply]
    cases hargs : p.arity.accepts args.length with
    | false => exact .done (.apply_miscounted hargs)
    | true =>
      cases p with
      | routine routine => exact Yields.give.of_goal (.apply_routine hargs)
      | control op => exact (control_yields ih hargs hj).of_goal (.apply_control hargs)
  | escape id =>
    rcases args with _ | ⟨v, _ | ⟨_, _⟩⟩
    · exact .done (.apply_exit (by simp))
    · exact .done (.apply_exit (by simp))
    · exact .done (.apply_exit_miscounted (by simp))
  | closure a =>
    simp only [apply, perform_inspect]
    refine Yields.of_goal ?_ .apply_closure
    exact .doing fun env s₁ _ => sequence_yields ih hj
  | _ => exact .done (.apply_other rfl)

end Moves

theorem Yields.of_step {g : Goal} (hm : ∀ r : Result, m.task ≠ r.task)
    (h : ∀ j, n = j + 1 → Yields c j k g s (Machine.step c m)) : Yields c n k g s m := by
  intro r s' hr hends
  cases n with
  | zero =>
    obtain ⟨d, rfl⟩ := hends
    exact absurd rfl (hm r)
  | succ j =>
    obtain ⟨i, hi, hrest⟩ := h j rfl r s' hr hends
    exact ⟨i, Nat.le_succ_of_le hi, hrest⟩

theorem refines (c : Context) (n : Nat) : Refines c n := by
  induction n using Nat.strongRecOn with
  | ind n ih =>
    constructor
    · intro form env k d s
      refine .of_step (fun r => by cases r <;> simp [Result.task]) fun j hj => ?_
      exact nest_yields ih (.whole k) (by omega)
    · intro form env k d s
      refine .of_step (fun r => by cases r <;> simp [Result.task]) fun j hj => ?_
      have hlt : j < n := by omega
      rcases k with _ | ⟨waiting, k⟩
      · exact evaluate_yields ih hlt
      · cases waiting with
        | call => exact nest_yields ih (.call k) hlt
        | _ => exact evaluate_yields ih hlt
    · intro f args k d s
      refine .of_step (fun r => by cases r <;> simp [Result.task]) fun j hj => ?_
      exact apply_yields ih (by omega)
    · intro v env level k d s
      refine .of_step (fun r => by cases r <;> simp [Result.task]) fun j hj => ?_
      exact template_yields ih (by omega)

/-- Whatever evaluating a form in tail position ends in, other than the depth limit, is what the
direct semantics gives and all that it gives, and the stores are the same. -/
theorem direct_of_steps {form : Value} {env : Environment} {d' : Nat}
    (h : (step c)^[n] ⟨.tail form env, [], d, s⟩ = ⟨r.task, [], d', s'⟩)
    (hr : r ≠ .error (.eval (.depthLimit c.maxDepth))) : Direct c (.eval form env) s r s' ∧
      ∀ t t', Direct c (.eval form env) s t t' → r = t ∧ s' = t' := by
  suffices hdirect : Direct c (.eval form env) s r s' from ⟨hdirect, fun _ _ => hdirect.unique⟩
  obtain ⟨j, -, r₁, s₁, d₁, k₁, hdirect, hk, d₂, hends⟩ := (refines c n).tail r s' hr ⟨d', h⟩
  cases hk
  have hfix : step c ⟨r₁.task, [], d₁, s₁⟩ = ⟨r₁.task, [], d₁, s₁⟩ := by cases r₁ <;> rfl
  rw [Function.iterate_fixed hfix] at hends
  cases r <;> cases r₁ <;> cases hends <;> exact hdirect

def cameTo (m : Machine) (n : Int64) : Bool :=
  match m.task, m.stack with
  | .value (.int i), [] => i == n
  | _, _ => false

theorem cameTo_eq {m : Machine} {n : Int64} (h : m.cameTo n) :
    m = ⟨(Result.value (.int n)).task, [], m.depth, m.store⟩ := by
  obtain ⟨task, stack, depth, store⟩ := m
  unfold cameTo at h
  split at h
  · simp_all [Result.task]
  · cases h

/-- Here the body of the closure and the branch of the conditional are in tail position. -/
theorem direct_of_steps_call :
    let branch := Datum.list [.name "if", .name "x", .int 1, .int 2]
    let closure := Datum.list [.name "lambda", .list [.name "x"], branch]
    let start := (Datum.list [closure, .bool false]).place
      { Store.empty with frames := #[⟨[], []⟩] }
    let c : Context := ⟨10, false, ⟨0, []⟩, "out"⟩
    ∃ s', Direct c (.eval start.1 ⟨0, []⟩) start.2 (.value (.int 2)) s' ∧
      ∀ t t', Direct c (.eval start.1 ⟨0, []⟩) start.2 t t' → .value (.int 2) = t ∧ s' = t' := by
  intro branch closure start c
  have hrun : cameTo ((step c)^[12] ⟨.tail start.1 ⟨0, []⟩, [], 0, start.2⟩) 2 := by decide +kernel
  exact ⟨_, direct_of_steps (cameTo_eq hrun) (by simp)⟩

end Machine
end HygienicScheme
