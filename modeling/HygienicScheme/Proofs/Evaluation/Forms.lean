import HygienicScheme.Proofs.Evaluation.Effects
import HygienicScheme.Proofs.Quasiquote.Running

/-!
# What comes of forms

What comes of a form at a depth is put together from what comes of its parts: a conditional takes
its test and then one of its branches, a call its operator, its operands and the procedure. Parts in
tail position come to what they come to at the depth of the form; lists elsewhere are evaluated one
level down, if the limit admits it.
-/
namespace HygienicScheme

structure Lambda where
  params : List Symbol
  body : List Value

def Lambda.closure (p : Lambda) (env : Environment) (name : Option String) : Closure :=
  ⟨p.params, none, p.body, env, name⟩

structure Store.IsLambda (s : Store) (form formals : Value) (p : Lambda) : Prop where
  special : s.IsSpecial form .lambda (formals :: p.body)
  formals : s.properList? formals = some (p.params.map .symbol)
  distinct : p.params.Nodup
  nonempty : p.body ≠ []

namespace Procedure

variable {s : Store} {xs : List Symbol} {env : Environment} {args : List Value}

theorem params_symbols {seen : List Symbol} (h : (seen.reverse ++ xs).Nodup) :
    params s seen (xs.map .symbol) = .ok (seen.reverse ++ xs) := by
  induction xs generalizing seen with
  | nil => rw [List.append_nil, List.map_nil, params]
  | cons x xs ih =>
    have hx : seen.contains x = false := by
      rw [List.contains_eq_mem, decide_eq_false_iff_not]
      intro hmem
      exact (List.nodup_append.mp h).2.2 x (List.mem_reverse.mpr hmem) x (.head _) rfl
    have hrest : ((x :: seen).reverse ++ xs).Nodup := by simpa using h
    rw [List.map_cons, params, hx, if_neg Bool.false_ne_true, ih hrest]
    simp

theorem make_lambda {form formals : Value} {p : Lambda} (h : s.IsLambda form formals p)
    (name : Option String) :
    make formals p.body env name s =
      (liftM (Build.closure (p.closure env name)) : Action Value) s := by
  have hsplit : s.splitList? formals = some (p.params.map .symbol, .null) :=
    Store.splitList?_eq_some.mpr (Store.properList?_eq_some.mp h.formals)
  have hparams : params s [] (p.params.map .symbol) = .ok p.params := params_symbols h.distinct
  have hformals : Procedure.formals s formals = .ok (p.params, none) := by
    rw [Procedure.formals, hsplit]
    dsimp only
    rw [hparams]
    rfl
  rw [make, if_neg (by simpa using h.nonempty), Action.inspect_bind, hformals]
  rfl

theorem bind_lambda {p : Lambda} {name : Option String} (hdistinct : p.params.Nodup)
    (hlength : args.length = p.params.length) : bind (p.closure env name) args s =
      (liftM (Build.child env (p.params.zip args)) : Action Environment) s := by
  have hformals : (p.closure env name).formals.Nodup := by
    simpa [Closure.formals, Lambda.closure] using hdistinct
  have haccepts : ¬ (p.closure env name).Refuses args.length := by
    simp [Closure.Refuses, Lambda.closure, hlength]
  have hextra : args.drop (p.closure env name).params.length = [] := by
    rw [Lambda.closure, ← hlength, List.drop_length]
  have hbindings (extra : Value) :
      (p.closure env name).bindings args extra = p.params.zip args := List.append_nil _
  rw [bind_distinct hformals haccepts]
  dsimp only
  rw [hextra, hbindings]
  rfl

end Procedure

namespace Machine

open Run

variable {c : Context} {d : Nat} {env : Environment} {s s' t : Store} {r : Result}
  {form v f : Value}
  {forms args body : List Value} {x : Symbol} {task : Task}

def within (c : Context) (d : Nat) (R : Run) : Run := fun s r s' =>
  if c.maxDepth ≤ d then r = .error (.limit c.maxDepth) ∧ s' = s else R s r s'

def inOrder (c : Context) (d : Nat) (env : Environment) : List Value → Run
  | [] => .done .unspecified
  | [form] => alone c d (.tail form env)
  | form :: more => (alone c d (.eval form env)).andThen fun _ => inOrder c d env more

def valuesOf (c : Context) (d : Nat) (env : Environment) : List Value → (List Value → Run) → Run
  | [], next => next []
  | form :: more, next => (alone c d (.eval form env)).andThen fun v =>
      valuesOf c d env more fun vs => next (v :: vs)

theorem doing_change {f : Store → Store} {next : Unit → Run} :
    doing (Action.change f) next s r s' ↔ next () (f s) r s' := by
  have hf : Action.change f s = .ok () (f s) := rfl
  simp [doing, hf, Unique.exists_iff]

theorem within_congr {R R' : Run} (h : R s r s' ↔ R' s r s') :
    within c d R s r s' ↔ within c d R' s r s' := by
  unfold within
  split
  · exact Iff.rfl
  · exact h

theorem within_andThen {R : Run} {next : Value → Run} :
    (within c d R).andThen next s r s' ↔ within c d (R.andThen next) s r s' := by
  unfold within andThen
  split
  · constructor
    · rintro (⟨v, t, ⟨⟨⟩, -⟩, -⟩ | ⟨-, h⟩)
      exact h
    · rintro ⟨rfl, rfl⟩
      exact .inr ⟨nofun, rfl, rfl⟩
  · exact Iff.rfl

theorem andThen_done {next : Value → Run} : (Run.done v).andThen next s r s' ↔ next v s r s' := by
  constructor
  · rintro (⟨w, t, ⟨h, rfl⟩, hnext⟩ | ⟨hr, rfl, -⟩)
    · cases h
      exact hnext
    · exact absurd rfl (hr v)
  · exact fun h => .inl ⟨v, s, ⟨rfl, rfl⟩, h⟩

theorem andThen_lift {α : Type} {b : Build α} {first : α → Run} {next : Value → Run} :
    (doing (liftM b) first).andThen next s r s' ↔
      doing (liftM b) (fun x => (first x).andThen next) s r s' := by
  simp only [andThen, doing_lift]

theorem alone_step : alone c d task s r s' ↔ Comes c (step c ⟨task, [], d, s⟩) r s' :=
  comes_step.symm

theorem comes_sequence :
    Comes c (perform (sequence forms env []) [] d s) r s' ↔ inOrder c d env forms s r s' := by
  induction forms generalizing s with
  | nil => exact comes_result (r := .value .unspecified)
  | cons form more ih =>
    cases more with
    | nil => exact Iff.rfl
    | cons next more => exact (comes_push rfl).trans (andThen_congr (fun _ _ => Iff.rfl)
      fun _ _ _ => ih)

theorem comes_arguments {done : List Value} :
    Comes c (perform (arguments f done forms env []) [] d s) r s' ↔
      valuesOf c d env forms (fun vs => alone c d (.apply f (done.reverse ++ vs))) s r s' := by
  induction forms generalizing s done with
  | nil =>
    rw [valuesOf, List.append_nil]
    exact Iff.rfl
  | cons form more ih =>
    refine (comes_push rfl).trans (andThen_congr (fun _ _ => Iff.rfl) fun v t _ => ?_)
    have hrest := @ih t (v :: done)
    simp only [List.reverse_cons, List.append_assoc, List.singleton_append] at hrest
    exact hrest

theorem alone_nested {a : Address} : alone c d (.eval (.pair a) env) s r s' ↔
    within c d (alone c (d + 1) (.tail (.pair a) env)) s r s' := by
  rw [alone_step, within]
  have hstep : step c ⟨.eval (.pair a) env, [], d, s⟩ =
      if c.maxDepth ≤ d then ⟨.error (.limit c.maxDepth), [], d, s⟩
      else ⟨.tail (.pair a) env, [.nested], d + 1, s⟩ := rfl
  rw [hstep]
  split
  · exact comes_result (r := .error (.limit c.maxDepth))
  · have hk : [Pending.nested].head? ≠ some .call := nofun
    have hpop (q : Result) (t : Store) :
        step c ⟨q.task, [.nested], d + 1, t⟩ = ⟨q.task, [], d, t⟩ := by cases q <;> rfl
    constructor
    · rintro ⟨n, d', h⟩
      have hatop : (step c)^[n] (atop ⟨.tail (.pair a) env, [], d + 1, s⟩ [.nested] 0) =
          ⟨r.task, [], d', s'⟩ := h
      obtain ⟨q, d₁, t, ⟨i, hi⟩, hrest⟩ := exists_of_atop hk hatop
      obtain rfl := depth_of_comes hi
      have hcomes : Comes c (step c ⟨q.task, [.nested], d + 1, t⟩) r s' :=
        comes_step.mpr ((comes_later hrest).mp comes_of_result)
      rw [hpop] at hcomes
      obtain ⟨rfl, rfl⟩ := comes_result.mp hcomes
      exact ⟨i, d + 1, hi⟩
    · rintro ⟨n, d', h⟩
      obtain rfl := depth_of_comes h
      refine (comes_later (later_atop h hk)).mp (comes_step.mp ?_)
      rw [hpop]
      exact comes_of_result

theorem alone_tail : alone c d (.tail form env) s r s' ↔
    Comes c (perform (evaluate c form env []) [] d s) r s' := alone_step

theorem alone_symbol : alone c d (.eval (.symbol x) env) s r s' ↔
    doing (Action.lookup env x) .done s r s' := alone_step.trans comes_give

theorem alone_constant (hp : ∀ a, v ≠ .pair a) (hx : ∀ x, v ≠ .symbol x) (hnull : v ≠ .null) :
    alone c d (.eval v env) s r s' ↔ Run.done v s r s' := by
  have hstep : step c ⟨.eval v env, [], d, s⟩ = ⟨(Result.value v).task, [], d, s⟩ := by
    cases v with
    | pair a => exact absurd rfl (hp a)
    | symbol x => exact absurd rfl (hx x)
    | null => exact absurd rfl hnull
    | _ => rfl
  rw [alone_step, hstep]
  exact comes_result

theorem alone_sequence (h : s.IsSpecial form .sequence forms) :
    alone c d (.tail form env) s r s' ↔ inOrder c d env forms s r s' := by
  rw [alone_tail, perform_sequence h, comes_sequence]

theorem alone_conditional {test yes : Value} {no : List Value} (hno : no.length ≤ 1)
    (h : s.IsSpecial form .conditional (test :: yes :: no)) :
    alone c d (.tail form env) s r s' ↔ ((alone c d (.eval test env)).andThen fun v =>
      if v.isTrue then alone c d (.tail yes env) else inOrder c d env no) s r s' := by
  rw [alone_tail, perform_conditional hno h, comes_push rfl]
  refine andThen_congr (fun _ _ => Iff.rfl) fun v t _ => ?_
  by_cases hv : v.isTrue = true
  · have hresume : resume c v (.branch yes no.head? env) [] = pure (.tail yes env, []) := if_pos hv
    rw [hresume, if_pos hv]
    exact Iff.rfl
  · rw [if_neg hv]
    match no with
    | [] =>
      have hresume : resume c v (.branch yes none env) [] = giveValue .unspecified [] := if_neg hv
      exact hresume ▸ comes_result (r := .value .unspecified)
    | [no] =>
      have hresume : resume c v (.branch yes (some no) env) [] = pure (.tail no env, []) :=
        if_neg hv
      exact hresume ▸ Iff.rfl
    | _ :: _ :: _ => simp at hno

theorem alone_lambda {formals : Value} {p : Lambda} (h : s.IsLambda form formals p) :
    alone c d (.tail form env) s r s' ↔
      doing (liftM (Build.closure (p.closure env none))) .done s r s' := by
  obtain ⟨a, heval, hlist⟩ := perform_special (c := c) (k := []) (d := d) h.special
  rw [alone_tail, heval, special, perform_properList, hlist]
  refine (comes_give (a := Procedure.make formals p.body env none)).trans ?_
  rw [doing, doing, Procedure.make_lambda h none]

theorem alone_quote (h : s.IsSpecial form .quote [v]) :
    alone c d (.tail form env) s r s' ↔ Run.done v s r s' := by
  obtain ⟨a, heval, hlist⟩ := perform_special (c := c) (k := []) (d := d) h
  rw [alone_tail, heval, special, perform_properList, hlist]
  exact comes_result (r := .value v)

/-- The operator, the operands from the left, and the procedure. The operands are still the same
when the operator has its value. -/
theorem alone_application {operator operands : Value}
    (h : s.IsApplication form operator operands)
    (hforms : ∀ f t, alone c d (.eval operator env) s (.value f) t →
      t.properList? operands = some forms) :
    alone c d (.tail form env) s r s' ↔ ((alone c d (.eval operator env)).andThen fun f =>
      valuesOf c d env forms fun args => alone c d (.apply f args)) s r s' := by
  rw [alone_tail, perform_application h, comes_push rfl]
  refine andThen_congr (fun _ _ => Iff.rfl) fun f t hf => ?_
  rw [resume, perform_properList, hforms f t hf]
  exact comes_arguments

theorem alone_closure {a : Address} : alone c d (.apply (.closure a) args) s r s' ↔
    doing (Procedure.bind (s.closureAt a) args)
      (fun env => inOrder c d env (s.closureAt a).body) s r s' := by
  have hstep : step c ⟨.apply (.closure a) args, [], d, s⟩ =
      perform (apply c (.closure a) args []) [] d s := rfl
  rw [alone_step, hstep, apply, perform_inspect, comes_doing]
  exact doing_congr fun _ _ _ => comes_sequence

theorem lambdaParts_of_isLambda {formals : Value} {p : Lambda} (h : s.IsLambda form formals p) :
    lambdaParts? s form = some (formals, p.body) := by
  obtain ⟨a, rfl, hkeyword, hlist⟩ := h.special
  obtain ⟨head, hhead, hstamp, hname⟩ : ∃ x : Symbol, (s.pairAt a).car = .symbol x ∧
      x.isStamped = false ∧ x.name = "lambda" := by
    unfold specialForm? SpecialForm.ofSymbol? at hkeyword
    split at hkeyword
    · rename_i x hx
      split at hkeyword
      · cases hkeyword
      · refine ⟨x, hx, Bool.eq_false_iff.mpr ‹_›, ?_⟩
        unfold SpecialForm.ofName? at hkeyword
        split at hkeyword <;> first | assumption | cases hkeyword
    · cases hkeyword
  have hproper : s.properList? (.pair a) = some (.symbol head :: formals :: p.body) :=
    Store.properList?_eq_some.mpr (hhead ▸ .pair (Store.properList?_eq_some.mp hlist))
  rw [lambdaParts?, hproper]
  simp [hname, hstamp]

theorem alone_definition {definiens formals : Value} {p : Lambda}
    (h : s.IsSpecial form .define [.symbol x, definiens]) (hp : s.IsLambda definiens formals p)
    (hx : isCoreKeyword x.name = false) (hbinds : s.binds env x = false) :
    alone c d (.tail form env) s r s' ↔
      doing (liftM (Build.closure (p.closure env (some x.name)))) (fun f =>
        doing (Action.change (·.bind env.frame x f)) fun _ => .done .unspecified) s r s' := by
  obtain ⟨a, rfl, hkeyword, hlist⟩ := h
  have hdefined : defined? s [.symbol x, definiens] = some (x, formals, p.body) := by
    rw [defined?, lambdaParts_of_isLambda hp]
    rfl
  have hdefinable : checkDefinable x = .ok () := by
    rw [checkDefinable, hx]
    rfl
  have hmake : Procedure.make formals p.body env (some x.name) s = .ok (.closure s.closures.size)
      { s with closures := s.closures.push (p.closure env (some x.name)) } :=
    Procedure.make_lambda hp _
  have hdefine : evaluate c (.pair a) env [] s = .ok (.value .unspecified, [])
      (({ s with closures := s.closures.push (p.closure env (some x.name)) } : Store).bind
        env.frame x (.closure s.closures.size)) := by
    rw [evaluate_made hkeyword hlist hdefined, hdefinable, Action.ok_bind, Action.bind_ok hmake,
      bindDefinition_outcome, if_neg]
    rintro ⟨-, hbound⟩
    exact Bool.noConfusion (hbinds.symm.trans hbound)
  rw [alone_tail, perform, hdefine, doing_lift, doing_change]
  exact comes_result (r := .value .unspecified)

end Machine

end HygienicScheme
