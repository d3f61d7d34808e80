import HygienicScheme.Proofs.Depth.Balance
import HygienicScheme.Proofs.Discipline.Sessions
import HygienicScheme.Proofs.Evaluation.Refinement

/-!
# Tail calls

A form in tail position takes the place of the form that it ends. Before it does, operands, tests
and earlier forms are evaluated inside, each of them as far down as it needs; then the stack and
the depth are again what they were, and so they are after any number of such calls. Whatever is
begun leaves the depth as it found it, and the limit is never exceeded; a tail call is no nested
evaluation, so a loop may take as many of them as it likes.
-/
namespace HygienicScheme

namespace Machine

variable {c : Context} {h d : Nat} {k : Stack} {env : Environment} {s s₁ s' : Store}
  {form v f : Value} {vs forms : List Value}

def Evaluates (c : Context) (h : Nat) (form : Value) (env : Environment) (s : Store) (v : Value)
    (s' : Store) : Prop :=
  Leads c h ⟨.eval form env, [], 0, s⟩ ⟨.value v, [], 0, s'⟩

inductive EvaluatesAll (c : Context) (h : Nat) (P : Value → Prop) (env : Environment) :
    List Value → Store → List Value → Store → Prop
  | nil {s : Store} : EvaluatesAll c h P env [] s [] s
  | cons {form v : Value} {more vs : List Value} {s s₁ s' : Store}
      (hform : Evaluates c h form env s v s₁) (hv : P v)
      (hmore : EvaluatesAll c h P env more s₁ vs s') :
      EvaluatesAll c h P env (form :: more) s (v :: vs) s'

end Machine

def Store.IsSpecial (s : Store) (form : Value) (keyword : SpecialForm) (operands : List Value) :
    Prop :=
  ∃ a, form = .pair a ∧ Machine.specialForm? (s.pairAt a).car = some keyword ∧
    s.properList? (s.pairAt a).cdr = some operands

def Store.IsApplication (s : Store) (form operator operands : Value) : Prop :=
  ∃ a, form = .pair a ∧ Machine.specialForm? (s.pairAt a).car = none ∧
    (s.pairAt a).car = operator ∧ (s.pairAt a).cdr = operands

namespace Machine

variable {c : Context} {h d : Nat} {k : Stack} {env : Environment} {s s₁ s' : Store}
  {form v f : Value} {vs forms : List Value}

/-- One task ends in another that takes its place. What else has to be evaluated for it goes no
further down than `h`. -/
inductive TailCall (c : Context) (h : Nat) : Task → Store → Task → Store → Prop
  | consequent {form test yes v : Value} {no : List Value} {env : Environment} {s s' : Store}
      (hform : s.IsSpecial form .conditional (test :: yes :: no)) (hno : no.length ≤ 1)
      (htest : Evaluates c h test env s v s') (hv : v.isTrue = true) :
      TailCall c h (.tail form env) s (.tail yes env) s'
  | alternative {form test yes no v : Value} {env : Environment} {s s' : Store}
      (hform : s.IsSpecial form .conditional [test, yes, no])
      (htest : Evaluates c h test env s v s') (hv : v.isTrue = false) :
      TailCall c h (.tail form env) s (.tail no env) s'
  | sequence {form last : Value} {first vs : List Value} {env : Environment} {s s' : Store}
      (hform : s.IsSpecial form .sequence (first ++ [last]))
      (hfirst : EvaluatesAll c h (fun _ => True) env first s vs s') :
      TailCall c h (.tail form env) s (.tail last env) s'
  | conjunction {form last : Value} {first vs : List Value} {env : Environment} {s s' : Store}
      (hform : s.IsSpecial form .conjunction (first ++ [last]))
      (hfirst : EvaluatesAll c h (·.isTrue = true) env first s vs s') :
      TailCall c h (.tail form env) s (.tail last env) s'
  | disjunction {form last : Value} {first vs : List Value} {env : Environment} {s s' : Store}
      (hform : s.IsSpecial form .disjunction (first ++ [last]))
      (hfirst : EvaluatesAll c h (·.isTrue = false) env first s vs s') :
      TailCall c h (.tail form env) s (.tail last env) s'
  | application {form operator operands f : Value} {forms args : List Value} {env : Environment}
      {s s₁ s' : Store} (hform : s.IsApplication form operator operands)
      (hf : Evaluates c h operator env s f s₁) (hforms : s₁.properList? operands = some forms)
      (hargs : EvaluatesAll c h (fun _ => True) env forms s₁ args s') :
      TailCall c h (.tail form env) s (.apply f args) s'
  | body {a : Address} {last : Value} {args first vs : List Value} {env : Environment}
      {s s₁ s' : Store} (hbind : Procedure.bind (s.closureAt a) args s = .ok env s₁)
      (hbody : (s.closureAt a).body = first ++ [last])
      (hfirst : EvaluatesAll c h (fun _ => True) env first s₁ vs s') :
      TailCall c h (.apply (.closure a) args) s (.tail last env) s'
  /-- The last argument of `apply` is a list of arguments, if there is one. -/
  | applyAlone {f : Value} {s : Store} :
      TailCall c h (.apply (.primitive (.control .apply)) [f]) s (.apply f []) s
  | apply {f list : Value} {args spread : List Value} {s : Store}
      (hlist : s.properList? list = some spread) :
      TailCall c h (.apply (.primitive (.control .apply)) (f :: args ++ [list])) s
        (.apply f (args ++ spread)) s
  | eval {form expanded : Value} {target : List Value} {s s' : Store} (htarget : target.length ≤ 1)
      (hexpand : Expansion.expandToplevel c.global form s = .ok expanded s') :
      TailCall c h (.apply (.primitive (.control .eval)) (form :: target)) s
        (.tail expanded c.global) s'

inductive TailCalls (c : Context) (h : Nat) : Nat → Task → Store → Task → Store → Prop
  | none {task : Task} {s : Store} : TailCalls c h 0 task s task s
  | more {n : Nat} {task task₁ task' : Task} {s s₁ s' : Store}
      (hfirst : TailCall c h task s task₁ s₁) (hrest : TailCalls c h n task₁ s₁ task' s') :
      TailCalls c h (n + 1) task s task' s'

theorem Leads.of_free {m m' : Machine} (hdepth : m.depth ≤ h) {next : Machine}
    (hfree : free c m = next) (hrest : Leads c h next m') : Leads c h m m' :=
  .step hdepth (hfree ▸ hrest)

theorem Evaluates.inside (heval : Evaluates c h form env s v s') (hk : k.head? ≠ some .call)
    (d : Nat) : Leads c (h + d) ⟨.eval form env, k, d, s⟩ ⟨.value v, k, d, s'⟩ := by
  have hatop := heval.atop rfl hk d
  rwa [atop_start, atop_start] at hatop

theorem free_tail (hk : k.head? ≠ some .call) : free c ⟨.tail form env, k, d, s⟩ =
    perform (evaluate c form env k) k d s := step_tail hk

theorem free_value {waiting : Pending} (hw : waiting ≠ .nested) :
    free c ⟨.value v, waiting :: k, d, s⟩ = perform (resume c v waiting k) k d s := by
  have hdepth : depthWithout waiting d = d := by
    cases waiting with
    | nested => exact absurd rfl hw
    | _ => rfl
  have hstep : free c ⟨.value v, waiting :: k, d, s⟩ =
      perform (resume c v waiting k) k (depthWithout waiting d) s := rfl
  rw [hstep, hdepth]

theorem perform_bind {α : Type} {a : Action α} {x : α} (move : α → Move) (ha : a s = .ok x s₁) :
    perform (a >>= move) k d s = perform (move x) k d s₁ := by
  simp only [perform, bind, EStateM.bind, ha]

structure Chain (c : Context) (P : Value → Prop)
    (move : List Value → Environment → Stack → Move)
    (waiting : List Value → Environment → Pending) : Prop where
  last : ∀ form env k, move [form] env k = pure (.tail form env, k)
  more : ∀ form next rest env k,
    move (form :: next :: rest) env k = pure (.eval form env, waiting (next :: rest) env :: k)
  resume : ∀ v rest env k, P v → resume c v (waiting rest env) k = move rest env k
  plain : ∀ rest env, waiting rest env ≠ .call ∧ waiting rest env ≠ .nested

theorem chain_sequence : Chain c (fun _ => True) sequence .body :=
  ⟨fun _ _ _ => rfl, fun _ _ _ _ _ => rfl, fun _ _ _ _ _ => rfl, fun _ _ => ⟨nofun, nofun⟩⟩

theorem chain_conjunction : Chain c (·.isTrue = true) conjunction .conjunction :=
  ⟨fun _ _ _ => rfl, fun _ _ _ _ _ => rfl, fun _ _ _ _ hv => if_pos hv,
    fun _ _ => ⟨nofun, nofun⟩⟩

theorem chain_disjunction : Chain c (·.isTrue = false) disjunction .disjunction :=
  ⟨fun _ _ _ => rfl, fun _ _ _ _ _ => rfl, fun _ _ _ _ hv => if_neg (by simp [hv]),
    fun _ _ => ⟨nofun, nofun⟩⟩

theorem Chain.leads {P : Value → Prop} {move : List Value → Environment → Stack → Move}
    {waiting : List Value → Environment → Pending} (hchain : Chain c P move waiting)
    {first : List Value} {last : Value} (hfirst : EvaluatesAll c h P env first s vs s') :
    Leads c (h + d) (perform (move (first ++ [last]) env k) k d s) ⟨.tail last env, k, d, s'⟩ := by
  induction hfirst with
  | nil =>
    rw [List.nil_append, hchain.last]
    exact .refl (Nat.le_add_left d h)
  | @cons form v more vs s s₁ s' hform hv hmore ih =>
    -- The last form is still to come, so this one waits for a value with the rest on the stack.
    obtain ⟨next, rest, hrest⟩ : ∃ next rest, more ++ [last] = next :: rest :=
      List.exists_cons_of_ne_nil (by simp)
    rw [List.cons_append, hrest, hchain.more]
    rw [hrest] at ih
    obtain ⟨hcall, hnested⟩ := hchain.plain (next :: rest) env
    have hinside := hform.inside (k := waiting (next :: rest) env :: k) (by simpa using hcall) d
    refine hinside.trans (.of_free (Nat.le_add_left d h) ?_ ih)
    rw [free_value hnested, hchain.resume v _ env k hv]

theorem leads_arguments {done args : List Value}
    (hargs : EvaluatesAll c h (fun _ => True) env forms s args s') :
    Leads c (h + d) (perform (arguments f done forms env k) k d s)
      ⟨.apply f (done.reverse ++ args), k, d, s'⟩ := by
  induction hargs generalizing done with
  | nil =>
    rw [List.append_nil]
    exact .refl (Nat.le_add_left d h)
  | @cons form v more vs s s₁ s' hform hv hmore ih =>
    have hinside := hform.inside (k := .operands f done more env :: k) nofun d
    refine hinside.trans (.of_free (Nat.le_add_left d h) (free_value nofun) ?_)
    have hrest := @ih (v :: done)
    rwa [List.reverse_cons, List.append_assoc] at hrest

section Forms

variable {keyword : SpecialForm} {operands : List Value}

theorem perform_special (hform : s.IsSpecial form keyword operands) :
    ∃ a, perform (evaluate c form env k) k d s =
      perform (special c keyword (s.pairAt a).cdr env k) k d s ∧
        s.properList? (s.pairAt a).cdr = some operands := by
  obtain ⟨a, rfl, hkeyword, hlist⟩ := hform
  refine ⟨a, ?_, hlist⟩
  simp only [evaluate, perform_inspect, hkeyword]

theorem perform_conditional {test yes : Value} {no : List Value} (hno : no.length ≤ 1)
    (hform : s.IsSpecial form .conditional (test :: yes :: no)) :
    perform (evaluate c form env k) k d s =
      ⟨.eval test env, .branch yes no.head? env :: k, d, s⟩ := by
  obtain ⟨a, heval, hlist⟩ := perform_special hform
  rw [heval, special, perform_properList, hlist]
  match no with
  | [] | [_] => rfl
  | _ :: _ :: _ => simp at hno

theorem perform_sequence (hform : s.IsSpecial form .sequence operands) :
    perform (evaluate c form env k) k d s = perform (sequence operands env k) k d s := by
  obtain ⟨a, heval, hlist⟩ := perform_special hform
  rw [heval, special, perform_properList, hlist]

theorem perform_conjunction (hform : s.IsSpecial form .conjunction operands) :
    perform (evaluate c form env k) k d s = perform (conjunction operands env k) k d s := by
  obtain ⟨a, heval, hlist⟩ := perform_special hform
  rw [heval, special, perform_properList, hlist]

theorem perform_disjunction (hform : s.IsSpecial form .disjunction operands) :
    perform (evaluate c form env k) k d s = perform (disjunction operands env k) k d s := by
  obtain ⟨a, heval, hlist⟩ := perform_special hform
  rw [heval, special, perform_properList, hlist]

end Forms

theorem perform_application {operator operands : Value}
    (hform : s.IsApplication form operator operands) :
    perform (evaluate c form env k) k d s =
      ⟨.eval operator env, .operator operands env :: k, d, s⟩ := by
  obtain ⟨a, rfl, hkeyword, rfl, rfl⟩ := hform
  simp only [evaluate, perform_inspect, hkeyword]
  rfl

section Applications

variable {args : List Value}

theorem perform_closure {a : Address}
    (hbind : Procedure.bind (s.closureAt a) args s = .ok env s₁) :
    perform (apply c (.closure a) args k) k d s =
      perform (sequence (s.closureAt a).body env k) k d s₁ := by
  rw [apply, perform_inspect, perform_bind _ hbind]

theorem apply_control {op : Control} (haccepts : op.arity.accepts args.length) :
    apply c (.primitive (.control op)) args k = control c op args k := if_pos haccepts

theorem perform_spread {list : Value} {spread : List Value}
    (hlist : s.properList? list = some spread) :
    perform (apply c (.primitive (.control .apply)) (f :: args ++ [list]) k) k d s =
      ⟨.apply f (args ++ spread), k, d, s⟩ := by
  have haccepts : Control.apply.arity.accepts (f :: (args ++ [list])).length := by
    simp [Control.arity, Arity.accepts]
  rw [List.cons_append, apply_control haccepts, control]
  simp only [List.getLast?_concat, List.dropLast_concat, Argument.list, bind_assoc,
    perform_properList, hlist, pure_bind]
  rfl

theorem perform_eval {expanded : Value} {target : List Value} (htarget : target.length ≤ 1)
    (hexpand : Expansion.expandToplevel c.global form s = .ok expanded s') :
    perform (apply c (.primitive (.control .eval)) (form :: target) k) k d s =
      ⟨.tail expanded c.global, k, d, s'⟩ := by
  have haccepts : Control.eval.arity.accepts (form :: target).length := by
    simp [Control.arity, Arity.accepts]
    omega
  rw [apply_control haccepts, control, perform_bind _ hexpand]
  rfl

end Applications

theorem TailCall.leads {task task' : Task} (hcall : TailCall c h task s task' s')
    (hk : k.head? ≠ some .call) (d : Nat) :
    Leads c (h + d) ⟨task, k, d, s⟩ ⟨task', k, d, s'⟩ := by
  have hd : d ≤ h + d := Nat.le_add_left d h
  cases hcall with
  | @consequent form test yes v no env s s' hform hno htest hv =>
    have hinside := htest.inside (k := .branch yes no.head? env :: k) (by simp) d
    refine .of_free hd ((free_tail hk).trans (perform_conditional hno hform)) ?_
    have hresume : resume c v (.branch yes no.head? env) k = pure (.tail yes env, k) := if_pos hv
    refine hinside.trans (.of_free hd (free_value (by simp)) ?_)
    rw [hresume]
    exact .refl hd
  | @alternative form test yes no v env s s' hform htest hv =>
    have hinside := htest.inside (k := .branch yes (some no) env :: k) (by simp) d
    have hone : [no].length ≤ 1 := Nat.le_refl 1
    refine .of_free hd ((free_tail hk).trans (perform_conditional hone hform)) ?_
    refine hinside.trans (.of_free hd (free_value (by simp)) ?_)
    rw [resume, if_neg (by simp [hv])]
    exact .refl hd
  | sequence hform hfirst =>
    exact .of_free hd ((free_tail hk).trans (perform_sequence hform)) (chain_sequence.leads hfirst)
  | conjunction hform hfirst =>
    exact .of_free hd ((free_tail hk).trans (perform_conjunction hform))
      (chain_conjunction.leads hfirst)
  | disjunction hform hfirst =>
    exact .of_free hd ((free_tail hk).trans (perform_disjunction hform))
      (chain_disjunction.leads hfirst)
  | @application form operator operands f forms args env s s₁ s' hform hf hforms hargs =>
    have hinside := hf.inside (k := .operator operands env :: k) (by simp) d
    refine .of_free hd ((free_tail hk).trans (perform_application hform)) ?_
    refine hinside.trans (.of_free hd (free_value (by simp)) ?_)
    rw [resume, perform_properList, hforms]
    exact leads_arguments hargs
  | @body a last args first vs env s s₁ s' hbind hbody hfirst =>
    refine .of_free hd (perform_closure hbind) ?_
    rw [hbody]
    exact chain_sequence.leads hfirst
  | applyAlone => exact .of_free hd rfl (.refl hd)
  | apply hlist => exact .of_free hd (perform_spread hlist) (.refl hd)
  | eval htarget hexpand => exact .of_free hd (perform_eval htarget hexpand) (.refl hd)

theorem TailCalls.leads {n : Nat} {task task' : Task} (hcalls : TailCalls c h n task s task' s')
    (hk : k.head? ≠ some .call) (d : Nat) :
    Leads c (h + d) ⟨task, k, d, s⟩ ⟨task', k, d, s'⟩ := by
  induction hcalls with
  | none => exact .refl (Nat.le_add_left d h)
  | more hfirst hrest ih => exact (hfirst.leads hk d).trans ih

end Machine

structure Store.CallsItself (s : Store) (x : Symbol) (a form : Address) (env : Environment) :
    Prop where
  plain : Machine.specialForm? (.symbol x) = none
  call : s.pairAt form = ⟨.symbol x, .null⟩
  params : (s.closureAt a).params = []
  rest : (s.closureAt a).rest = none
  body : (s.closureAt a).body = [.pair form]
  here : s.lookup? env x = some (.closure a)
  within : s.lookupExact? x (s.closureAt a).env.chain = some (.closure a)

namespace Store.CallsItself

variable {c : Context} {s : Store} {x : Symbol} {a form : Address} {env : Environment}

def next (s : Store) : Store := { s with frames := s.frames.push ⟨[], []⟩ }

theorem frameAt_next (f : Address) : (next s).frameAt f = s.frameAt f := by
  simp only [next, frameAt, Array.getD_eq_getD_getElem?, Array.getElem?_push]
  split
  · subst f
    simp
  · rfl

theorem lookupExact?_next (fs : List Address) :
    (next s).lookupExact? x fs = s.lookupExact? x fs := by
  induction fs with
  | nil => rfl
  | cons f fs ih => rw [lookupExact?, lookupExact?, frameAt_next, ih]

theorem again (h : s.CallsItself x a form env) :
    (next s).CallsItself x a form ⟨s.frames.size, (s.closureAt a).env.chain⟩ := by
  have hwithin : (next s).lookupExact? x (s.closureAt a).env.chain = some (.closure a) :=
    (lookupExact?_next _).trans h.within
  refine ⟨h.plain, h.call, h.params, h.rest, h.body, ?_, hwithin⟩
  have hempty : s.frameAt s.frames.size = ⟨[], []⟩ := by simp [frameAt]
  rw [lookup?, Environment.chain, lookupExact?, frameAt_next, hempty]
  simp only [List.lookup_nil, hwithin]

theorem evaluates (h : s.CallsItself x a form env) :
    Machine.Evaluates c 0 (.symbol x) env s (.closure a) s := by
  have hlookup : Action.lookup env x s = .ok (.closure a) s := by
    simp only [Action.lookup, Action.inspect, Bind.bind, EStateM.bind, h.here]
    rfl
  refine .of_free (Nat.le_refl 0) ?_ (.refl (Nat.le_refl 0))
  have hnest : Machine.free c ⟨.eval (.symbol x) env, [], 0, s⟩ =
      Machine.perform (Machine.evaluate c (.symbol x) env []) [] 0 s := rfl
  rw [hnest, Machine.evaluate, Machine.perform_bind _ hlookup]
  rfl

theorem bind (h : s.CallsItself x a form env) : Procedure.bind (s.closureAt a) [] s =
    .ok ⟨s.frames.size, (s.closureAt a).env.chain⟩ (next s) := by
  have haccepts : (Procedure.arity (s.closureAt a)).accepts ([] : List Value).length = true := by
    simp [Procedure.arity, h.rest, h.params, Arity.accepts]
  rw [Procedure.bind, if_pos haccepts, h.params, h.rest]
  rfl

theorem tailCalls (h : s.CallsItself x a form env) (n : Nat) :
    ∃ env' s', Machine.TailCalls c 0 (2 * n) (.tail (.pair form) env) s
      (.tail (.pair form) env') s' := by
  induction n generalizing s env with
  | zero => exact ⟨env, s, .none⟩
  | succ n ih =>
    obtain ⟨env', s', hrest⟩ := ih h.again
    have hform : s.IsApplication (.pair form) (.symbol x) .null :=
      ⟨form, rfl, by rw [h.call]; exact h.plain, by rw [h.call], by rw [h.call]⟩
    have hcall : Machine.TailCall c 0 (.tail (.pair form) env) s (.apply (.closure a) []) s :=
      .application hform h.evaluates rfl .nil
    have hbody : Machine.TailCall c 0 (.apply (.closure a) []) s
        (.tail (.pair form) ⟨s.frames.size, (s.closureAt a).env.chain⟩) (next s) :=
      .body h.bind (show (s.closureAt a).body = [] ++ [.pair form] from h.body) .nil
    exact ⟨env', s', .more hcall (.more hbody hrest)⟩

end Store.CallsItself

/-! ### How the depth is accounted for -/

namespace Machine

variable {c : Context} {m : Machine} {k : Stack} {d : Nat} {s : Store}

inductive Activity
  /-- A form, with all the forms in tail position that it goes on to. -/
  | whole (form : Value) (env : Environment)
  | nested (form : Value) (env : Environment)
  /-- An application up to its value. -/
  | call (f : Value) (args : List Value)
  /-- An application up to the form that it leaves in tail position, if it does. -/
  | enter (f : Value) (args : List Value)
  | control (op : Control) (args : List Value) (h : op.arity.accepts args.length)

def Activity.begin (c : Context) (k : Stack) (d : Nat) (s : Store) : Activity → Machine
  | whole form env => ⟨.tail form env, k, d, s⟩
  | nested form env => ⟨.eval form env, k, d, s⟩
  | call f args => ⟨.apply f args, .call :: k, d, s⟩
  | enter f args => ⟨.apply f args, k, d, s⟩
  | control op args _ => perform (Machine.control c op args k) k d s

theorem Activity.begin_inside (a : Activity) : (a.begin c k d s).Inside k d := by
  cases a with
  | call f args => exact ⟨[.call], rfl, rfl⟩
  | control op args haccepts =>
    obtain ⟨task, new, t, hnew, -, hperform⟩ := (Uniform.control op args haccepts).perform s
    refine ⟨new, ?_, ?_⟩
    · rw [begin, hperform]
    · rw [begin, hperform, hnew, Nat.add_zero]
  | _ => exact ⟨[], rfl, rfl⟩

theorem TailCall.unlimited {h : Nat} {task task' : Task} {s' : Store}
    (hcall : TailCall c h task s task' s') : Unlimited ⟨task, k, d, s⟩ := by
  cases hcall <;> exact nofun

/-- What holds of the depth, whatever is evaluated. -/
structure AccountsDepth (c : Context) : Prop where
  /-- Until a result is handed to the stack, at the depth that was there, the depth is greater than
  it was by the nested evaluations that have begun since and not ended. -/
  kept : ∀ (a : Activity) k d s n, ((step c)^[n] (a.begin c k d s)).Inside k d ∨
    ∃ j < n, ((step c)^[j] (a.begin c k d s)).Returned k d
  bounded : ∀ m, m.depth ≤ c.maxDepth → ∀ n, ((step c)^[n] m).depth ≤ c.maxDepth
  /-- What is in tail position is evaluated on the same stack and at the same depth. -/
  tail : ∀ h task s task' s' k d, TailCall c h task s task' s' → k.head? ≠ some .call →
    d + h ≤ c.maxDepth → Reaches c ⟨task, k, d, s⟩ ⟨task', k, d, s'⟩
  /-- So it is after any number of tail calls, and what they end in is evaluated there as well. -/
  loop : ∀ h n form env s task' s' last k d, TailCalls c h n (.tail form env) s task' s' →
    Leads c h ⟨task', [], 0, s'⟩ last → k.head? ≠ some .call → d + h ≤ c.maxDepth →
    Reaches c ⟨.tail form env, k, d, s⟩ (last.atop k d)

theorem accounts_depth (c : Context) : AccountsDepth c := by
  constructor
  · intro a k d s n
    exact a.begin_inside.iterate n
  · intro m hm n
    have hle := depth_iterate_le (c := c) (m := m) n
    rwa [Nat.max_eq_right hm] at hle
  · intro h task s task' s' k d hcall hk hlimit
    rw [Nat.add_comm] at hlimit
    exact (hcall.leads hk d).reaches hlimit hcall.unlimited
  · intro h n form env s task' s' last k d hcalls hlast hk hlimit
    have hend := hlast.atop rfl hk d
    rw [atop_start] at hend
    rw [Nat.add_comm] at hlimit
    exact ((hcalls.leads hk d).trans hend).reaches hlimit nofun

theorem balanced_of_reached {config : Config} {outputName : String} {T : Terms}
    (h : Reached config outputName T m) : m.Balanced 0 ∧ m.depth ≤ config.maxDepth := by
  induction h with
  | refl => exact ⟨rfl, Nat.zero_le _⟩
  | tail _ hnext ih =>
    cases hnext with
    | step =>
      refine ⟨ih.1.step, Nat.le_trans depth_step_le ?_⟩
      exact Nat.max_le.mpr ⟨ih.2, Nat.le_refl _⟩
    | _ => exact ⟨rfl, Nat.zero_le _⟩

end Machine

end HygienicScheme
