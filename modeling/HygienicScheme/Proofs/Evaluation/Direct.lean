import HygienicScheme.Machine.Step
import HygienicScheme.Proofs.Store.Chains

/-!
# The direct semantics

What a form means, told without a machine. `Direct c g s r s'` says that the goal `g`, begun in the
store `s`, comes to the result `r` and leaves the store `s'`. There is no stack and no counting of
depth: a form in tail position is a goal like any other. Every construct has the rule that the
description of the language gives it, in the long way: a definition evaluates its form whatever
the form is, and only then lets the closure of a lambda form know its name.

An escape or an error of a part is one of the whole (`andThen_escape`, `andThen_error`), except
that the call which made an exit catches it (`catching_own`). The rules leave no choice: a goal has
at most one result (`Direct.unique`).
-/
namespace HygienicScheme

inductive Result
  | value (v : Value)
  | escape (id : Nat) (v : Value)
  | error (e : Error)

inductive Goal : Type 1
  | done (v : Value)
  /-- Acts on the store, and goes on with what the action gives. -/
  | doing {α : Type} (a : Action α) (next : α → Goal)
  | andThen (first : Goal) (next : Value → Goal)
  /-- Catches the exit with this number. -/
  | catching (id : Nat) (g : Goal)
  | eval (form : Value) (env : Environment)
  | special (form : SpecialForm) (operands : List Value) (env : Environment)
  | sequence (forms : List Value) (env : Environment)
  | conjunction (forms : List Value) (env : Environment)
  | disjunction (forms : List Value) (env : Environment)
  /-- Evaluates the operands that are left and applies the operator. -/
  | call (f : Value) (done more : List Value) (env : Environment)
  | apply (f : Value) (args : List Value)
  | control (op : Control) (args : List Value)
  | map (f : Value) (columns : List (List Value)) (done : List Value)
  | forEach (f : Value) (columns : List (List Value))
  | template (v : Value) (env : Environment) (level : Nat)

namespace Reference

def properItems (v : Value) (complaint : Store → Error) : Action (List Value) := do
  match ← Action.properList? v with
  | some items => pure items
  | none => throw (complaint (← get))

theorem properItems_some {s : Store} {v : Value} {complaint : Store → Error} {items : List Value}
    (h : s.properList? v = some items) : properItems v complaint s = .ok items s := by
  simp only [properItems, Action.properList?, Action.inspect, bind, EStateM.bind, h]
  rfl

theorem properItems_none {s : Store} {v : Value} {complaint : Store → Error}
    (h : s.properList? v = none) : properItems v complaint s = .error (complaint s) s := by
  simp only [properItems, Action.properList?, Action.inspect, bind, EStateM.bind, h]
  rfl

def operandForms (operands : Value) : Action (List Value) :=
  properItems operands fun s => .eval (.improperArguments (s.writeText operands))

def specialOperands (form : SpecialForm) (operands : Value) : Action (List Value) :=
  properItems operands fun _ => .malformed form.keyword .improperOperands

def spliced (v : Value) : Action (List Value) :=
  properItems v fun s => .type (.improperSplice (s.writeText v))

inductive Definition
  | expression (x : Symbol) (form : Value)
  | procedure (x : Symbol) (formals : Value) (body : List Value)

def Definition.read (operands : List Value) : Action Definition := do
  match operands with
  | [] => Action.malformed "define" .missingName
  | .symbol x :: [form] =>
    Machine.checkDefinable x
    return .expression x form
  | .symbol _ :: _ => Action.malformed "define" .definition
  | .pair a :: body =>
    let header ← Action.inspect (·.pairAt a)
    match header.car with
    | .symbol x =>
      Machine.checkDefinable x
      return .procedure x header.cdr body
    | v => Action.malformed "define" (.notIdentifier (← Action.writeText v))
  | v :: _ => Action.malformed "define" (.undefinable (← Action.writeText v))

def bind (c : Context) (x : Symbol) (env : Environment) (v : Value) : Action Value := do
  if c.redefine && env.frame == c.global.frame then Action.defineOrReplace env x v
  else Action.define env x v
  return .unspecified

def name (x : Symbol) (v : Value) : Action Unit :=
  match v with
  | .closure a => Action.change fun s =>
    { s with closures := s.closures.modify a fun closure => { closure with name := some x.name } }
  | _ => pure ()

def bindNamed (c : Context) (x : Symbol) (env : Environment) (v : Value) : Action Value := do
  name x v
  bind c x env v

def isLambda (s : Store) (form : Value) : Bool := (Machine.lambdaParts? s form).isSome

def assign (x : Symbol) (env : Environment) (v : Value) : Action Value := do
  Action.assign env x v
  return .unspecified

def vectorOfList (v : Value) : Action Value := do
  let items ← Action.properList? v
  Build.vector (items.getD []).toArray

def innerLevel (keyword : QuasiKeyword) (level : Nat) : Nat :=
  if keyword = .quasiquote then level + 1 else level - 1

def keep (a : Address) (v : Value) : Action Value := do
  match ← Action.inspect (·.promiseAt a) with
  | .forced v => return v
  | .delayed _ =>
    Action.change fun s => { s with promises := s.promises.setIfInBounds a (.forced v) }
    return v

def output (procedure : String) (text : Store → String) (target : List Value) : Action Value := do
  Machine.checkOutput procedure target
  Machine.emit (← Action.inspect text)
  return .unspecified

def problem? (s : Store) (form : SpecialForm) (operands : List Value) : Option Error :=
  match form, operands with
  | .quote, [_] | .quasiquote, [_] | .lambda, _ :: _ | .conditional, [_, _]
  | .conditional, [_, _, _] | .assign, [.symbol _, _] => none
  | .quote, _ => some (.malformed "quote" .oneDatum)
  | .quasiquote, _ => some (.malformed "quasiquote" .oneTemplate)
  | .unquote, _ => some (.malformed "unquote" .outsideQuasiquote)
  | .lambda, _ => some (.malformed "lambda" .missingFormals)
  | .conditional, _ => some (.malformed "if" .conditional)
  | .assign, [v, _] => some (.malformed "set!" (.notIdentifier (s.writeText v)))
  | .assign, _ => some (.malformed "set!" .assignment)
  | .letSyntax, _ => some (.malformed "let-syntax" .unexpanded)
  | .define, _ | .sequence, _ | .conjunction, _ | .disjunction, _ | .defineSyntax, _ => none

end Reference

open Reference Machine in
inductive Direct (c : Context) : Goal → Store → Result → Store → Prop
  | done {v s} : Direct c (.done v) s (.value v) s
  | doing_ok {α} {a : Action α} {next x s s₁ r s₂} (ha : a s = .ok x s₁)
      (h : Direct c (next x) s₁ r s₂) : Direct c (.doing a next) s r s₂
  | doing_error {α} {a : Action α} {next s e s₁} (ha : a s = .error e s₁) :
      Direct c (.doing a next) s (.error e) s₁
  | andThen_value {g next v s s₁ r s₂} (h : Direct c g s (.value v) s₁)
      (k : Direct c (next v) s₁ r s₂) : Direct c (.andThen g next) s r s₂
  | andThen_escape {g next id v s s₁} (h : Direct c g s (.escape id v) s₁) :
      Direct c (.andThen g next) s (.escape id v) s₁
  | andThen_error {g next e s s₁} (h : Direct c g s (.error e) s₁) :
      Direct c (.andThen g next) s (.error e) s₁
  | catching_own {id g v s s₁} (h : Direct c g s (.escape id v) s₁) :
      Direct c (.catching id g) s (.value v) s₁
  | catching_other {id g r s s₁} (h : Direct c g s r s₁) (hr : ∀ v, r ≠ .escape id v) :
      Direct c (.catching id g) s r s₁
  -- forms
  | constant {v env s} (hx : ∀ x, v ≠ .symbol x) (ha : ∀ a, v ≠ .pair a) (hn : v ≠ .null) :
      Direct c (.eval v env) s (.value v) s
  | symbol {x env s r s₁} (h : Direct c (.doing (Action.lookup env x) .done) s r s₁) :
      Direct c (.eval (.symbol x) env) s r s₁
  | empty {env s} : Direct c (.eval .null env) s (.error (.eval .emptyApplication)) s
  | form {a env s form r s₁} (hf : specialForm? (s.pairAt a).car = some form)
      (h : Direct c (.doing (specialOperands form (s.pairAt a).cdr) (.special form · env)) s r s₁) :
      Direct c (.eval (.pair a) env) s r s₁
  | application {a env s r s₁} (hf : specialForm? (s.pairAt a).car = none)
      (h : Direct c (.andThen (.eval (s.pairAt a).car env) fun f =>
        .doing (operandForms (s.pairAt a).cdr) (.call f [] · env)) s r s₁) :
      Direct c (.eval (.pair a) env) s r s₁
  | call_more {f done form more env s r s₁}
      (h : Direct c (.andThen (.eval form env) fun v => .call f (v :: done) more env) s r s₁) :
      Direct c (.call f done (form :: more) env) s r s₁
  | call_last {f done env s r s₁} (h : Direct c (.apply f done.reverse) s r s₁) :
      Direct c (.call f done [] env) s r s₁
  -- special forms
  | problem {form operands env s e} (he : problem? s form operands = some e) :
      Direct c (.special form operands env) s (.error e) s
  | quote {v env s} : Direct c (.special .quote [v] env) s (.value v) s
  | quasiquote {v env s r s₁} (h : Direct c (.template v env 1) s r s₁) :
      Direct c (.special .quasiquote [v] env) s r s₁
  | lambda {formals body env s r s₁}
      (h : Direct c (.doing (Procedure.make formals body env none) .done) s r s₁) :
      Direct c (.special .lambda (formals :: body) env) s r s₁
  | conditional {test consequent alternative env s r s₁}
      (h : Direct c (.andThen (.eval test env) fun v =>
        .eval (if v.isTrue then consequent else alternative) env) s r s₁) :
      Direct c (.special .conditional [test, consequent, alternative] env) s r s₁
  | conditional_one {test consequent env s r s₁}
      (h : Direct c (.andThen (.eval test env) fun v =>
        if v.isTrue then .eval consequent env else .done .unspecified) s r s₁) :
      Direct c (.special .conditional [test, consequent] env) s r s₁
  | define {operands env s r s₁}
      (h : Direct c (.doing (Definition.read operands) fun
        | .expression x form => .doing (Action.inspect (isLambda · form)) fun lambda =>
          .andThen (.eval form env) fun v =>
            .doing (if lambda then bindNamed c x env v else bind c x env v) .done
        | .procedure x formals body => .doing (Procedure.make formals body env none) fun v =>
          .doing (bindNamed c x env v) .done) s r s₁) :
      Direct c (.special .define operands env) s r s₁
  | assign {x form env s r s₁}
      (h : Direct c (.andThen (.eval form env) fun v => .doing (assign x env v) .done) s r s₁) :
      Direct c (.special .assign [.symbol x, form] env) s r s₁
  | sequence {forms env s r s₁} (h : Direct c (.sequence forms env) s r s₁) :
      Direct c (.special .sequence forms env) s r s₁
  | conjunction {forms env s r s₁} (h : Direct c (.conjunction forms env) s r s₁) :
      Direct c (.special .conjunction forms env) s r s₁
  | disjunction {forms env s r s₁} (h : Direct c (.disjunction forms env) s r s₁) :
      Direct c (.special .disjunction forms env) s r s₁
  | defineSyntax {operands env s} :
      Direct c (.special .defineSyntax operands env) s (.value .unspecified) s
  | sequence_none {env s} : Direct c (.sequence [] env) s (.value .unspecified) s
  | sequence_last {form env s r s₁} (h : Direct c (.eval form env) s r s₁) :
      Direct c (.sequence [form] env) s r s₁
  | sequence_more {form next more env s r s₁}
      (h : Direct c (.andThen (.eval form env) fun _ => .sequence (next :: more) env) s r s₁) :
      Direct c (.sequence (form :: next :: more) env) s r s₁
  | conjunction_none {env s} : Direct c (.conjunction [] env) s (.value (.bool true)) s
  | conjunction_last {form env s r s₁} (h : Direct c (.eval form env) s r s₁) :
      Direct c (.conjunction [form] env) s r s₁
  | conjunction_more {form next more env s r s₁}
      (h : Direct c (.andThen (.eval form env) fun v =>
        if v.isTrue then .conjunction (next :: more) env else .done v) s r s₁) :
      Direct c (.conjunction (form :: next :: more) env) s r s₁
  | disjunction_none {env s} : Direct c (.disjunction [] env) s (.value (.bool false)) s
  | disjunction_last {form env s r s₁} (h : Direct c (.eval form env) s r s₁) :
      Direct c (.disjunction [form] env) s r s₁
  | disjunction_more {form next more env s r s₁}
      (h : Direct c (.andThen (.eval form env) fun v =>
        if v.isTrue then .done v else .disjunction (next :: more) env) s r s₁) :
      Direct c (.disjunction (form :: next :: more) env) s r s₁
  -- quasiquoted templates
  | template_atom {v env level s} (ha : ∀ a, v ≠ .pair a) (hv : ∀ a, v ≠ .vector a) :
      Direct c (.template v env level) s (.value v) s
  | template_unquote {v env s operand r s₁} (hq : s.quasiForm? v = some (.unquote, operand))
      (h : Direct c (.eval operand env) s r s₁) : Direct c (.template v env 1) s r s₁
  | template_misplaced {v env s operand} (hq : s.quasiForm? v = some (.unquoteSplicing, operand)) :
      Direct c (.template v env 1) s
        (.error (.malformed "unquote-splicing" .outsideList)) s
  | template_nested {v env level s keyword operand r s₁}
      (hq : s.quasiForm? v = some (keyword, operand)) (hk : keyword = .quasiquote ∨ level ≠ 1)
      (h : Direct c (.andThen (.template operand env (innerLevel keyword level)) fun w =>
        .doing (Build.list [.name keyword.name, w]) .done) s r s₁) :
      Direct c (.template v env level) s r s₁
  | template_splice {a env s operand r s₁} (hq : s.quasiForm? (.pair a) = none)
      (hs : splice? s (s.pairAt a).car = some operand)
      (h : Direct c (.andThen (.eval operand env) fun v => .doing (spliced v) fun items =>
        .andThen (.template (s.pairAt a).cdr env 1) fun rest =>
          .doing (Build.listWithTail items rest) .done) s r s₁) :
      Direct c (.template (.pair a) env 1) s r s₁
  | template_pair {a env level s r s₁} (hq : s.quasiForm? (.pair a) = none)
      (hs : level = 1 → splice? s (s.pairAt a).car = none)
      (h : Direct c (.andThen (.template (s.pairAt a).car env level) fun car =>
        .andThen (.template (s.pairAt a).cdr env level) fun cdr =>
          .doing (Build.cons car cdr) .done) s r s₁) :
      Direct c (.template (.pair a) env level) s r s₁
  | template_vector {a env level s r s₁}
      (h : Direct c (.doing (Build.list (s.vectorAt a).toList) fun list =>
        .andThen (.template list env level) fun v => .doing (vectorOfList v) .done) s r s₁) :
      Direct c (.template (.vector a) env level) s r s₁
  -- applications
  | apply_closure {a args s r s₁}
      (h : Direct c (.doing (Procedure.bind (s.closureAt a) args)
        (.sequence (s.closureAt a).body ·)) s r s₁) :
      Direct c (.apply (.closure a) args) s r s₁
  | apply_exit {id args s} (hargs : args.length ≤ 1) :
      Direct c (.apply (.escape id) args) s (.escape id (args.head?.getD .unspecified)) s
  | apply_exit_miscounted {id args s} (hargs : 1 < args.length) :
      Direct c (.apply (.escape id) args) s
        (.error (.arity (some "continuation") (.between 0 1) args.length)) s
  | apply_miscounted {p args s} (hargs : p.arity.accepts args.length = false) :
      Direct c (.apply (.primitive p) args) s
        (.error (.arity (some p.name) p.arity args.length)) s
  | apply_routine {routine args s r s₁} (hargs : routine.arity.accepts args.length)
      (h : Direct c (.doing (routine.run args) .done) s r s₁) :
      Direct c (.apply (.primitive (.routine routine)) args) s r s₁
  | apply_control {op args s r s₁} (hargs : op.arity.accepts args.length)
      (h : Direct c (.control op args) s r s₁) :
      Direct c (.apply (.primitive (.control op)) args) s r s₁
  | apply_other {f args s} (hf : f.isProcedure = false) :
      Direct c (.apply f args) s (.error (.notApplicable (s.writeText f))) s
  -- control operations
  | apply_none {f s r s₁} (h : Direct c (.apply f []) s r s₁) :
      Direct c (.control .apply [f]) s r s₁
  | apply_spread {f more last s r s₁} (hlast : more.getLast? = some last)
      (h : Direct c (.doing (Argument.list "apply" last) fun spread =>
        .apply f (more.dropLast ++ spread)) s r s₁) :
      Direct c (.control .apply (f :: more)) s r s₁
  | map {f lists s r s₁}
      (h : Direct c (.doing (lists.mapM (Argument.list "map")) (.map f · [])) s r s₁) :
      Direct c (.control .map (f :: lists)) s r s₁
  | forEach {f lists s r s₁}
      (h : Direct c (.doing (lists.mapM (Argument.list "for-each")) (.forEach f ·)) s r s₁) :
      Direct c (.control .forEach (f :: lists)) s r s₁
  | map_row {f columns row rest done s r s₁} (hrow : nextRow? columns = some (row, rest))
      (h : Direct c (.andThen (.apply f row) fun v => .map f rest (v :: done)) s r s₁) :
      Direct c (.map f columns done) s r s₁
  | map_end {f columns done s r s₁} (hrow : nextRow? columns = none)
      (h : Direct c (.doing (Build.list done.reverse) .done) s r s₁) :
      Direct c (.map f columns done) s r s₁
  | forEach_row {f columns row rest s r s₁} (hrow : nextRow? columns = some (row, rest))
      (h : Direct c (.andThen (.apply f row) fun _ => .forEach f rest) s r s₁) :
      Direct c (.forEach f columns) s r s₁
  | forEach_end {f columns s} (hrow : nextRow? columns = none) :
      Direct c (.forEach f columns) s (.value .unspecified) s
  | capture {op f s r s₁} (hop : op = .callWithCurrentContinuation ∨ op = .callCC)
      (h : Direct c (.catching (s.exits + 1) (.apply f [.escape (s.exits + 1)]))
        { s with exits := s.exits + 1 } r s₁) :
      Direct c (.control op [f]) s r s₁
  | eval {form rest s r s₁}
      (h : Direct c (.doing (Expansion.expandToplevel c.global form) (.eval · c.global)) s r s₁) :
      Direct c (.control .eval (form :: rest)) s r s₁
  | force_forced {a v s} (ha : s.promiseAt a = .forced v) :
      Direct c (.control .force [.promise a]) s (.value v) s
  | force_delayed {a thunk s r s₁} (ha : s.promiseAt a = .delayed thunk)
      (h : Direct c (.andThen (.apply thunk []) fun v => .doing (keep a v) .done) s r s₁) :
      Direct c (.control .force [.promise a]) s r s₁
  | force_value {v s} (hv : ∀ a, v ≠ .promise a) : Direct c (.control .force [v]) s (.value v) s
  | display {v target s r s₁}
      (h : Direct c (.doing (output "display" (·.displayText v) target) .done) s r s₁) :
      Direct c (.control .display (v :: target)) s r s₁
  | write {v target s r s₁}
      (h : Direct c (.doing (output "write" (·.writeText v) target) .done) s r s₁) :
      Direct c (.control .write (v :: target)) s r s₁
  | newline {target s r s₁}
      (h : Direct c (.doing (output "newline" (fun _ => "\n") target) .done) s r s₁) :
      Direct c (.control .newline target) s r s₁
  | currentOutputPort {s} :
      Direct c (.control .currentOutputPort []) s (.value (.outputPort c.outputName)) s

def Result.caught (id : Nat) : Result → Result
  | .escape i v => if i = id then .value v else .escape i v
  | r => r

theorem Result.caught_of_ne {id : Nat} {r : Result} (hr : ∀ v, r ≠ .escape id v) :
    r.caught id = r := by
  cases r with
  | escape i v => exact if_neg fun hi : i = id => hr v (hi ▸ rfl)
  | _ => rfl

namespace Direct

open Reference Machine

variable {c : Context} {g : Goal} {s s' s₁ : Store} {r : Result} {v f : Value} {e : Error}
  {env : Environment} {a : Address} {level : Nat} {operand : Value} {args : List Value}

/-! ### Actions and what follows them -/

theorem of_doing_ok {α : Type} {action : Action α} {next : α → Goal} {x : α}
    (hok : action s = .ok x s₁) (h : Direct c (.doing action next) s r s') :
    Direct c (next x) s₁ r s' := by
  cases h with
  | doing_ok hok' h =>
    cases hok.symm.trans hok'
    exact h
  | doing_error herror => cases hok.symm.trans herror

theorem of_doing_error {α : Type} {action : Action α} {next : α → Goal}
    (herror : action s = .error e s₁) (h : Direct c (.doing action next) s r s') :
    .error e = r ∧ s₁ = s' := by
  cases h with
  | doing_ok hok => cases herror.symm.trans hok
  | doing_error herror' =>
    cases herror.symm.trans herror'
    exact ⟨rfl, rfl⟩

theorem of_andThen {next : Value → Goal} (h : Direct c (.andThen g next) s r s') :
    ∃ q s₁, Direct c g s q s₁ ∧ (∀ v, q = .value v → Direct c (next v) s₁ r s') ∧
      ((∀ v, q ≠ .value v) → q = r ∧ s₁ = s') := by
  cases h with
  | andThen_value h k =>
    refine ⟨_, _, h, fun v hv => ?_, fun hq => absurd rfl (hq _)⟩
    cases hv
    exact k
  | andThen_escape h | andThen_error h => exact ⟨_, _, h, nofun, fun _ => ⟨rfl, rfl⟩⟩

theorem of_catching {id : Nat} (h : Direct c (.catching id g) s r s') :
    ∃ q, Direct c g s q s' ∧ q.caught id = r := by
  cases h with
  | catching_own h => exact ⟨_, h, if_pos rfl⟩
  | catching_other h hr => exact ⟨r, h, Result.caught_of_ne hr⟩

/-! ### Forms -/

theorem of_constant (hx : ∀ x, v ≠ .symbol x) (ha : ∀ a, v ≠ .pair a) (hn : v ≠ .null)
    (h : Direct c (.eval v env) s r s') : .value v = r ∧ s = s' := by
  cases h with
  | constant => exact ⟨rfl, rfl⟩
  | symbol => exact absurd rfl (hx _)
  | empty => exact absurd rfl hn
  | form | application => exact absurd rfl (ha _)

theorem of_symbol {x : Symbol} (h : Direct c (.eval (.symbol x) env) s r s') :
    Direct c (.doing (Action.lookup env x) .done) s r s' := by
  cases h with
  | symbol h => exact h
  | constant hx => exact absurd rfl (hx _)

theorem of_empty (h : Direct c (.eval .null env) s r s') :
    .error (.eval .emptyApplication) = r ∧ s = s' := by
  cases h with
  | empty => exact ⟨rfl, rfl⟩
  | constant _ _ hn => exact absurd rfl hn

theorem of_form {form : SpecialForm} (hform : specialForm? (s.pairAt a).car = some form)
    (h : Direct c (.eval (.pair a) env) s r s') :
    Direct c (.doing (specialOperands form (s.pairAt a).cdr) (.special form · env)) s r s' := by
  cases h with
  | form hform' h =>
    cases hform.symm.trans hform'
    exact h
  | application hform' => cases hform.symm.trans hform'
  | constant _ ha => exact absurd rfl (ha _)

theorem of_application (hform : specialForm? (s.pairAt a).car = none)
    (h : Direct c (.eval (.pair a) env) s r s') :
    Direct c (.andThen (.eval (s.pairAt a).car env) fun f =>
      .doing (operandForms (s.pairAt a).cdr) (.call f [] · env)) s r s' := by
  cases h with
  | application _ h => exact h
  | form hform' => cases hform.symm.trans hform'
  | constant _ ha => exact absurd rfl (ha _)

theorem of_problem {form : SpecialForm} {operands : List Value}
    (he : problem? s form operands = some e) (h : Direct c (.special form operands env) s r s') :
    .error e = r ∧ s = s' := by
  cases h with
  | problem he' =>
    cases he.symm.trans he'
    exact ⟨rfl, rfl⟩
  | _ => cases he

/-! ### Quasiquoted templates

Which form of quasiquotation a template is, and whether its head is spliced, the store decides. -/

theorem of_template_atom (ha : ∀ a, v ≠ .pair a) (hv : ∀ a, v ≠ .vector a)
    (h : Direct c (.template v env level) s r s') : .value v = r ∧ s = s' := by
  cases h with
  | template_atom => exact ⟨rfl, rfl⟩
  | template_unquote hq | template_misplaced hq | template_nested hq =>
    obtain ⟨a, rfl⟩ := Store.quasiForm?_pair hq
    exact absurd rfl (ha a)
  | template_splice | template_pair => exact absurd rfl (ha _)
  | template_vector => exact absurd rfl (hv _)

theorem of_template_unquote (hq : s.quasiForm? v = some (.unquote, operand))
    (h : Direct c (.template v env 1) s r s') : Direct c (.eval operand env) s r s' := by
  obtain ⟨a, rfl⟩ := Store.quasiForm?_pair hq
  cases h with
  | template_unquote hq' h =>
    cases hq.symm.trans hq'
    exact h
  | template_nested hq' hlevel =>
    cases hq.symm.trans hq'
    simp at hlevel
  | template_atom ha => exact absurd rfl (ha _)
  | template_misplaced hq' | template_splice hq' | template_pair hq' => cases hq.symm.trans hq'

theorem of_template_misplaced (hq : s.quasiForm? v = some (.unquoteSplicing, operand))
    (h : Direct c (.template v env 1) s r s') :
    .error (.malformed "unquote-splicing" .outsideList) = r ∧ s = s' := by
  obtain ⟨a, rfl⟩ := Store.quasiForm?_pair hq
  cases h with
  | template_misplaced => exact ⟨rfl, rfl⟩
  | template_nested hq' hlevel =>
    cases hq.symm.trans hq'
    simp at hlevel
  | template_atom ha => exact absurd rfl (ha _)
  | template_unquote hq' | template_splice hq' | template_pair hq' => cases hq.symm.trans hq'

theorem of_template_nested {keyword : QuasiKeyword}
    (hq : s.quasiForm? v = some (keyword, operand)) (hlevel : keyword = .quasiquote ∨ level ≠ 1)
    (h : Direct c (.template v env level) s r s') :
    Direct c (.andThen (.template operand env (innerLevel keyword level)) fun w =>
      .doing (Build.list [.name keyword.name, w]) .done) s r s' := by
  obtain ⟨a, rfl⟩ := Store.quasiForm?_pair hq
  cases h with
  | template_nested hq' _ h =>
    cases hq.symm.trans hq'
    exact h
  | template_unquote hq' | template_misplaced hq' =>
    cases hq.symm.trans hq'
    simp at hlevel
  | template_atom ha => exact absurd rfl (ha _)
  | template_splice hq' | template_pair hq' => cases hq.symm.trans hq'

theorem of_template_splice (hq : s.quasiForm? (.pair a) = none)
    (hsplice : splice? s (s.pairAt a).car = some operand)
    (h : Direct c (.template (.pair a) env 1) s r s') :
    Direct c (.andThen (.eval operand env) fun v => .doing (spliced v) fun items =>
      .andThen (.template (s.pairAt a).cdr env 1) fun rest =>
        .doing (Build.listWithTail items rest) .done) s r s' := by
  cases h with
  | template_splice _ hsplice' h =>
    cases hsplice.symm.trans hsplice'
    exact h
  | template_pair _ hsplice' => cases hsplice.symm.trans (hsplice' rfl)
  | template_atom ha => exact absurd rfl (ha _)
  | template_unquote hq' | template_misplaced hq' | template_nested hq' =>
    cases hq.symm.trans hq'

theorem of_template_pair (hq : s.quasiForm? (.pair a) = none)
    (hsplice : level = 1 → splice? s (s.pairAt a).car = none)
    (h : Direct c (.template (.pair a) env level) s r s') :
    Direct c (.andThen (.template (s.pairAt a).car env level) fun car =>
      .andThen (.template (s.pairAt a).cdr env level) fun cdr =>
        .doing (Build.cons car cdr) .done) s r s' := by
  cases h with
  | template_pair _ _ h => exact h
  | template_splice _ hsplice' => cases hsplice'.symm.trans (hsplice rfl)
  | template_atom ha => exact absurd rfl (ha _)
  | template_unquote hq' | template_misplaced hq' | template_nested hq' =>
    cases hq.symm.trans hq'

theorem of_template_vector (h : Direct c (.template (.vector a) env level) s r s') :
    Direct c (.doing (Build.list (s.vectorAt a).toList) fun list =>
      .andThen (.template list env level) fun v => .doing (vectorOfList v) .done) s r s' := by
  cases h with
  | template_vector h => exact h
  | template_atom _ hv => exact absurd rfl (hv _)
  | template_unquote hq | template_misplaced hq | template_nested hq => cases hq

/-! ### Applications -/

theorem of_apply_closure (h : Direct c (.apply (.closure a) args) s r s') :
    Direct c (.doing (Procedure.bind (s.closureAt a) args)
      (.sequence (s.closureAt a).body ·)) s r s' := by
  cases h with
  | apply_closure h => exact h
  | apply_other hf => cases hf

theorem of_apply_exit {id : Nat} (hargs : args.length ≤ 1)
    (h : Direct c (.apply (.escape id) args) s r s') :
    .escape id (args.head?.getD .unspecified) = r ∧ s = s' := by
  cases h with
  | apply_exit => exact ⟨rfl, rfl⟩
  | apply_exit_miscounted hargs' => omega
  | apply_other hf => cases hf

theorem of_apply_exit_miscounted {id : Nat} (hargs : 1 < args.length)
    (h : Direct c (.apply (.escape id) args) s r s') :
    .error (.arity (some "continuation") (.between 0 1) args.length) = r ∧ s = s' := by
  cases h with
  | apply_exit_miscounted => exact ⟨rfl, rfl⟩
  | apply_exit hargs' => omega
  | apply_other hf => cases hf

theorem of_apply_miscounted {p : Primitive} (hargs : p.arity.accepts args.length = false)
    (h : Direct c (.apply (.primitive p) args) s r s') :
    .error (.arity (some p.name) p.arity args.length) = r ∧ s = s' := by
  cases h with
  | apply_miscounted => exact ⟨rfl, rfl⟩
  | apply_routine hargs' | apply_control hargs' => cases hargs.symm.trans hargs'
  | apply_other hf => cases hf

theorem of_apply_routine {routine : Routine} (hargs : routine.arity.accepts args.length)
    (h : Direct c (.apply (.primitive (.routine routine)) args) s r s') :
    Direct c (.doing (routine.run args) .done) s r s' := by
  cases h with
  | apply_routine _ h => exact h
  | apply_miscounted hargs' => cases hargs.symm.trans hargs'
  | apply_other hf => cases hf

theorem of_apply_control {op : Control} (hargs : op.arity.accepts args.length)
    (h : Direct c (.apply (.primitive (.control op)) args) s r s') :
    Direct c (.control op args) s r s' := by
  cases h with
  | apply_control _ h => exact h
  | apply_miscounted hargs' => cases hargs.symm.trans hargs'
  | apply_other hf => cases hf

theorem of_apply_other (hf : f.isProcedure = false) (h : Direct c (.apply f args) s r s') :
    .error (.notApplicable (s.writeText f)) = r ∧ s = s' := by
  cases h with
  | apply_other => exact ⟨rfl, rfl⟩
  | _ => cases hf

/-! ### Control operations -/

theorem of_apply_none (h : Direct c (.control .apply [f]) s r s') :
    Direct c (.apply f []) s r s' := by
  cases h with
  | apply_none h => exact h
  | apply_spread hlast => cases hlast
  | capture hop => simp at hop

theorem of_apply_spread {more : List Value} {last : Value} (hlast : more.getLast? = some last)
    (h : Direct c (.control .apply (f :: more)) s r s') :
    Direct c (.doing (Argument.list "apply" last) fun spread =>
      .apply f (more.dropLast ++ spread)) s r s' := by
  cases h with
  | apply_spread hlast' h =>
    cases hlast.symm.trans hlast'
    exact h
  | apply_none => cases hlast
  | capture hop => simp at hop

theorem of_map_row {columns rest : List (List Value)} {row done : List Value}
    (hrow : nextRow? columns = some (row, rest)) (h : Direct c (.map f columns done) s r s') :
    Direct c (.andThen (.apply f row) fun v => .map f rest (v :: done)) s r s' := by
  cases h with
  | map_row hrow' h =>
    cases hrow.symm.trans hrow'
    exact h
  | map_end hrow' => cases hrow.symm.trans hrow'

theorem of_map_end {columns : List (List Value)} {done : List Value}
    (hrow : nextRow? columns = none) (h : Direct c (.map f columns done) s r s') :
    Direct c (.doing (Build.list done.reverse) .done) s r s' := by
  cases h with
  | map_row hrow' => cases hrow.symm.trans hrow'
  | map_end _ h => exact h

theorem of_forEach_row {columns rest : List (List Value)} {row : List Value}
    (hrow : nextRow? columns = some (row, rest)) (h : Direct c (.forEach f columns) s r s') :
    Direct c (.andThen (.apply f row) fun _ => .forEach f rest) s r s' := by
  cases h with
  | forEach_row hrow' h =>
    cases hrow.symm.trans hrow'
    exact h
  | forEach_end hrow' => cases hrow.symm.trans hrow'

theorem of_forEach_end {columns : List (List Value)} (hrow : nextRow? columns = none)
    (h : Direct c (.forEach f columns) s r s') : .value .unspecified = r ∧ s = s' := by
  cases h with
  | forEach_row hrow' => cases hrow.symm.trans hrow'
  | forEach_end => exact ⟨rfl, rfl⟩

theorem of_capture {op : Control} (hop : op = .callWithCurrentContinuation ∨ op = .callCC)
    (h : Direct c (.control op [f]) s r s') :
    Direct c (.catching (s.exits + 1) (.apply f [.escape (s.exits + 1)]))
      { s with exits := s.exits + 1 } r s' := by
  cases h with
  | capture _ h => exact h
  | _ => simp at hop

theorem of_force_forced (ha : s.promiseAt a = .forced v)
    (h : Direct c (.control .force [.promise a]) s r s') : .value v = r ∧ s = s' := by
  cases h with
  | force_forced ha' =>
    cases ha.symm.trans ha'
    exact ⟨rfl, rfl⟩
  | force_delayed ha' => cases ha.symm.trans ha'
  | force_value hv => exact absurd rfl (hv _)
  | capture hop => simp at hop

theorem of_force_delayed {thunk : Value} (ha : s.promiseAt a = .delayed thunk)
    (h : Direct c (.control .force [.promise a]) s r s') :
    Direct c (.andThen (.apply thunk []) fun v => .doing (keep a v) .done) s r s' := by
  cases h with
  | force_delayed ha' h =>
    cases ha.symm.trans ha'
    exact h
  | force_forced ha' => cases ha.symm.trans ha'
  | force_value hv => exact absurd rfl (hv _)
  | capture hop => simp at hop

theorem of_force_value (hv : ∀ a, v ≠ .promise a) (h : Direct c (.control .force [v]) s r s') :
    .value v = r ∧ s = s' := by
  cases h with
  | force_value => exact ⟨rfl, rfl⟩
  | force_forced | force_delayed => exact absurd rfl (hv _)
  | capture hop => simp at hop

/-! ### The one result of a goal -/

theorem unique {t : Result} {t' : Store} (h : Direct c g s r s') (k : Direct c g s t t') :
    r = t ∧ s' = t' := by
  induction h generalizing t t' with
  | doing_ok hok _ ih => exact ih (k.of_doing_ok hok)
  | doing_error herror => exact k.of_doing_error herror
  | andThen_value _ _ ih ih' =>
    obtain ⟨q, s₁, hq, hvalue, -⟩ := k.of_andThen
    obtain ⟨rfl, rfl⟩ := ih hq
    exact ih' (hvalue _ rfl)
  | andThen_escape _ ih | andThen_error _ ih =>
    obtain ⟨q, s₁, hq, -, hends⟩ := k.of_andThen
    obtain ⟨rfl, rfl⟩ := ih hq
    exact hends nofun
  | catching_own _ ih =>
    obtain ⟨q, hq, rfl⟩ := k.of_catching
    obtain ⟨rfl, rfl⟩ := ih hq
    exact ⟨(if_pos rfl).symm, rfl⟩
  | catching_other _ hr ih =>
    obtain ⟨q, hq, rfl⟩ := k.of_catching
    obtain ⟨rfl, rfl⟩ := ih hq
    exact ⟨(Result.caught_of_ne hr).symm, rfl⟩
  | constant hx ha hn => exact k.of_constant hx ha hn
  | symbol _ ih => exact ih k.of_symbol
  | empty => exact k.of_empty
  | form hform _ ih => exact ih (k.of_form hform)
  | application hform _ ih => exact ih (k.of_application hform)
  | problem he => exact k.of_problem he
  | template_atom ha hv => exact k.of_template_atom ha hv
  | template_unquote hq _ ih => exact ih (k.of_template_unquote hq)
  | template_misplaced hq => exact k.of_template_misplaced hq
  | template_nested hq hlevel _ ih => exact ih (k.of_template_nested hq hlevel)
  | template_splice hq hsplice _ ih => exact ih (k.of_template_splice hq hsplice)
  | template_pair hq hsplice _ ih => exact ih (k.of_template_pair hq hsplice)
  | template_vector _ ih => exact ih k.of_template_vector
  | apply_closure _ ih => exact ih k.of_apply_closure
  | apply_exit hargs => exact k.of_apply_exit hargs
  | apply_exit_miscounted hargs => exact k.of_apply_exit_miscounted hargs
  | apply_miscounted hargs => exact k.of_apply_miscounted hargs
  | apply_routine hargs _ ih => exact ih (k.of_apply_routine hargs)
  | apply_control hargs _ ih => exact ih (k.of_apply_control hargs)
  | apply_other hf => exact k.of_apply_other hf
  | apply_none _ ih => exact ih k.of_apply_none
  | apply_spread hlast _ ih => exact ih (k.of_apply_spread hlast)
  | map_row hrow _ ih => exact ih (k.of_map_row hrow)
  | map_end hrow _ ih => exact ih (k.of_map_end hrow)
  | forEach_row hrow _ ih => exact ih (k.of_forEach_row hrow)
  | forEach_end hrow => exact k.of_forEach_end hrow
  | capture hop _ ih => exact ih (k.of_capture hop)
  | force_forced ha => exact k.of_force_forced ha
  | force_delayed ha _ ih => exact ih (k.of_force_delayed ha)
  | force_value hv => exact k.of_force_value hv
  | map _ ih | forEach _ ih | eval _ ih | display _ ih | write _ ih | newline _ ih =>
    cases k with
    | capture hop => simp at hop
    | _ =>
      rename_i k
      exact ih k
  | _ =>
    -- Each of the goals that are left has one rule, or one beside that for a malformed form.
    cases k
    all_goals first
      | exact ⟨rfl, rfl⟩
      | (rename_i ih k; exact ih k)
      | (rename_i he; cases he)

end Direct

end HygienicScheme
