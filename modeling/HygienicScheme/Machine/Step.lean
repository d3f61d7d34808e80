import HygienicScheme.Expansion
import HygienicScheme.Machine.Basic
import HygienicScheme.Primitive.Routine
import HygienicScheme.Procedure
import HygienicScheme.SpecialForm

/-! One step of the evaluator. -/
namespace HygienicScheme

namespace Machine

abbrev Move := Action (Task × Stack)

def giveValue (v : Value) (k : Stack) : Move := pure (.value v, k)

def sequence (forms : List Value) (env : Environment) (k : Stack) : Move :=
  match forms with
  | [] => giveValue .unspecified k
  | [last] => pure (.tail last env, k)
  | form :: more => pure (.eval form env, .body more env :: k)

def conjunction (forms : List Value) (env : Environment) (k : Stack) : Move :=
  match forms with
  | [] => giveValue (.bool true) k
  | [last] => pure (.tail last env, k)
  | form :: more => pure (.eval form env, .conjunction more env :: k)

def disjunction (forms : List Value) (env : Environment) (k : Stack) : Move :=
  match forms with
  | [] => giveValue (.bool false) k
  | [last] => pure (.tail last env, k)
  | form :: more => pure (.eval form env, .disjunction more env :: k)

def arguments (f : Value) (done more : List Value) (env : Environment) (k : Stack) : Move :=
  match more with
  | [] => pure (.apply f done.reverse, k)
  | form :: more => pure (.eval form env, .operands f done more env :: k)

def checkDefinable (x : Symbol) : Except Error Unit :=
  if isCoreKeyword x.name && !x.isStamped then .error (.malformed "define" (.keyword x.name))
  else .ok ()

def bindDefinition (c : Context) (x : Symbol) (v : Value) (env : Environment) (k : Stack) :
    Move := do
  if c.redefine && env.frame == c.global.frame then Action.defineOrReplace env x v
  else Action.define env x v
  giveValue .unspecified k

def lambdaParts? (s : Store) (form : Value) : Option (Value × List Value) :=
  match s.properList? form with
  | some (.symbol head :: formals :: body) =>
    if head.name == "lambda" && !head.isStamped then some (formals, body) else none
  | _ => none

def define (c : Context) (operands : List Value) (env : Environment) (k : Stack) : Move := do
  match operands with
  | [] => Action.malformed "define" .missingName
  | .symbol x :: rest =>
    match rest with
    | [form] =>
      checkDefinable x
      match ← Action.inspect (lambdaParts? · form) with
      | some (formals, body) =>
        bindDefinition c x (← Procedure.make formals body env (some x.name)) env k
      | none => return (.eval form env, .definition x env :: k)
    | _ => Action.malformed "define" .definition
  | .pair a :: body =>
    let header ← Action.inspect (·.pairAt a)
    match header.car with
    | .symbol x =>
      checkDefinable x
      bindDefinition c x (← Procedure.make header.cdr body env (some x.name)) env k
    | v => Action.malformed "define" (.notIdentifier (← Action.writeText v))
  | v :: _ => Action.malformed "define" (.undefinable (← Action.writeText v))

def special (c : Context) (form : SpecialForm) (operands : Value) (env : Environment)
    (k : Stack) : Move := do
  match ← Action.properList? operands with
  | none => Action.malformed form.keyword .improperOperands
  | some operands =>
    match form, operands with
    | .quote, [v] => giveValue v k
    | .quote, _ => Action.malformed "quote" .oneDatum
    | .quasiquote, [v] => return (.template v env 1, k)
    | .quasiquote, _ => Action.malformed "quasiquote" .oneTemplate
    | .unquote, _ => Action.malformed "unquote" .outsideQuasiquote
    | .lambda, formals :: body => giveValue (← Procedure.make formals body env none) k
    | .lambda, [] => Action.malformed "lambda" .missingFormals
    | .conditional, [test, consequent] =>
      return (.eval test env, .branch consequent none env :: k)
    | .conditional, [test, consequent, alternative] =>
      return (.eval test env, .branch consequent (some alternative) env :: k)
    | .conditional, _ => Action.malformed "if" .conditional
    | .define, operands => define c operands env k
    | .assign, [.symbol x, form] => return (.eval form env, .assignment x env :: k)
    | .assign, [v, _] => Action.malformed "set!" (.notIdentifier (← Action.writeText v))
    | .assign, _ => Action.malformed "set!" .assignment
    | .sequence, forms => sequence forms env k
    | .conjunction, forms => conjunction forms env k
    | .disjunction, forms => disjunction forms env k
    | .defineSyntax, _ => giveValue .unspecified k
    | .letSyntax, _ => Action.malformed "let-syntax" .unexpanded

def specialForm? : Value → Option SpecialForm
  | .symbol x => SpecialForm.ofSymbol? x
  | _ => none

def evaluate (c : Context) (form : Value) (env : Environment) (k : Stack) : Move := do
  match form with
  | .symbol x => giveValue (← Action.lookup env x) k
  | .pair a =>
    let p ← Action.inspect (·.pairAt a)
    match specialForm? p.car with
    | some form => special c form p.cdr env k
    | none => return (.eval p.car env, .operator p.cdr env :: k)
  | .null => throw (.eval .emptyApplication)
  | v => giveValue v k

def nextRow? : List (List Value) → Option (List Value × List (List Value))
  | [] => some ([], [])
  | [] :: _ => none
  | (v :: column) :: more =>
    match nextRow? more with
    | some (row, rest) => some (v :: row, column :: rest)
    | none => none

def map (f : Value) (columns : List (List Value)) (done : List Value) (k : Stack) : Move :=
  match nextRow? columns with
  | some (row, rest) => pure (.apply f row, .call :: .mapping f rest done :: k)
  | none => do giveValue (← Build.list done.reverse) k

def forEach (f : Value) (columns : List (List Value)) (k : Stack) : Move :=
  match nextRow? columns with
  | some (row, rest) => pure (.apply f row, .call :: .iteration f rest :: k)
  | none => giveValue .unspecified k

def emit (text : String) : Action Unit :=
  Action.change fun s => { s with output := s.output ++ text }

def checkOutput (procedure : String) : List Value → Action Unit
  | [] | .outputPort _ :: _ => pure ()
  | v :: _ => Argument.reject procedure "port" v

def force (a : Address) (k : Stack) : Move := do
  match ← Action.inspect (·.promiseAt a) with
  | .forced v => giveValue v k
  | .delayed thunk => return (.apply thunk [], .call :: .forcing a :: k)

def settle (a : Address) (v : Value) (k : Stack) : Move := do
  match ← Action.inspect (·.promiseAt a) with
  | .forced v => giveValue v k
  | .delayed _ =>
    Action.change fun s => { s with promises := s.promises.setIfInBounds a (.forced v) }
    giveValue v k

def capture (f : Value) (k : Stack) : Move := do
  let id ← modifyGet fun s => (s.exits + 1, { s with exits := s.exits + 1 })
  return (.apply f [.escape id], .call :: .capture id :: k)

def control (c : Context) (op : Control) (args : List Value) (k : Stack) : Move :=
  match op, args with
  | .apply, f :: more => do
    match more.getLast? with
    | none => return (.apply f [], k)
    | some last =>
      let spread ← Argument.list "apply" last
      return (.apply f (more.dropLast ++ spread), k)
  | .map, f :: lists => do map f (← lists.mapM (Argument.list "map")) [] k
  | .forEach, f :: lists => do forEach f (← lists.mapM (Argument.list "for-each")) k
  | .callWithCurrentContinuation, [f] | .callCC, [f] => capture f k
  | .eval, form :: _ => do return (.tail (← Expansion.expandToplevel c.global form) c.global, k)
  | .force, [.promise a] => force a k
  | .force, [v] => giveValue v k
  | .display, v :: target => do
    checkOutput "display" target
    emit (← Action.inspect (·.displayText v))
    giveValue .unspecified k
  | .write, v :: target => do
    checkOutput "write" target
    emit (← Action.writeText v)
    giveValue .unspecified k
  | .newline, target => do
    checkOutput "newline" target
    emit "\n"
    giveValue .unspecified k
  | .currentOutputPort, [] => giveValue (.outputPort c.outputName) k
  | op, args => Argument.miscounted op.name op.arity args

def apply (c : Context) (f : Value) (args : List Value) (k : Stack) : Move := do
  match f with
  | .primitive p =>
    if p.arity.accepts args.length then
      match p with
      | .routine r => giveValue (← r.run args) k
      | .control op => control c op args k
    else Argument.miscounted p.name p.arity args
  | .escape id =>
    match args with
    | [] => return (.escape id .unspecified, k)
    | [v] => return (.escape id v, k)
    | args => Argument.miscounted "continuation" (.between 0 1) args
  | .closure a =>
    let closure ← Action.inspect (·.closureAt a)
    let env ← Procedure.bind closure args
    sequence closure.body env k
  | v => throw (.notApplicable (← Action.writeText v))

def splice? (s : Store) (v : Value) : Option Value :=
  match s.quasiForm? v with
  | some (.unquoteSplicing, operand) => some operand
  | _ => none

def templateForm (keyword : QuasiKeyword) (operand : Value) (env : Environment) (level : Nat)
    (k : Stack) : Move :=
  match keyword with
  | .quasiquote => pure (.template operand env (level + 1), .quasiForm keyword :: k)
  | .unquote =>
    if level = 1 then pure (.eval operand env, k)
    else pure (.template operand env (level - 1), .quasiForm keyword :: k)
  | .unquoteSplicing =>
    if level = 1 then Action.malformed "unquote-splicing" .outsideList
    else pure (.template operand env (level - 1), .quasiForm keyword :: k)

def template (v : Value) (env : Environment) (level : Nat) (k : Stack) : Move := do
  match v with
  | .pair a =>
    match ← Action.inspect (·.quasiForm? v) with
    | some (keyword, operand) => templateForm keyword operand env level k
    | none =>
      let p ← Action.inspect (·.pairAt a)
      let splice ← if level = 1 then Action.inspect (splice? · p.car) else pure none
      match splice with
      | some operand => return (.eval operand env, .quasiSplice p.cdr env level :: k)
      | none => return (.template p.car env level, .quasiRest p.cdr env level :: k)
  | .vector a =>
    let items ← Action.inspect (·.vectorAt a)
    return (.template (← Build.list items.toList) env level, .quasiVector :: k)
  | v => giveValue v k

def resume (c : Context) (v : Value) (waiting : Pending) (k : Stack) : Move := do
  match waiting with
  | .nested | .call | .capture _ => giveValue v k
  | .operator operands env =>
    match ← Action.properList? operands with
    | some forms => arguments v [] forms env k
    | none => throw (.eval (.improperArguments (← Action.writeText operands)))
  | .operands f done more env => arguments f (v :: done) more env k
  | .branch consequent alternative env =>
    if v.isTrue then return (.tail consequent env, k) else
      match alternative with
      | some form => return (.tail form env, k)
      | none => giveValue .unspecified k
  | .definition x env => bindDefinition c x v env k
  | .assignment x env => do
    Action.assign env x v
    giveValue .unspecified k
  | .body more env => sequence more env k
  | .conjunction more env => if v.isTrue then conjunction more env k else giveValue v k
  | .disjunction more env => if v.isTrue then giveValue v k else disjunction more env k
  | .mapping f columns done => map f columns (v :: done) k
  | .iteration f columns => forEach f columns k
  | .forcing a => settle a v k
  | .quasiForm keyword => do giveValue (← Build.list [.name keyword.name, v]) k
  | .quasiSplice rest env level =>
    match ← Action.properList? v with
    | some items => return (.template rest env level, .quasiAppend items :: k)
    | none => throw (.type (.improperSplice (← Action.writeText v)))
  | .quasiAppend items => do giveValue (← Build.listWithTail items v) k
  | .quasiRest rest env level => return (.template rest env level, .quasiCons v :: k)
  | .quasiCons car => do giveValue (← Build.cons car v) k
  | .quasiVector => do
    let items ← Action.properList? v
    giveValue (← Build.vector (items.getD []).toArray) k

def depthWithout (waiting : Pending) (depth : Nat) : Nat :=
  match waiting with
  | .nested => depth - 1
  | _ => depth

def perform (move : Move) (k : Stack) (depth : Nat) (s : Store) : Machine :=
  match move s with
  | .ok (task, k) s => ⟨task, k, depth, s⟩
  | .error e s => ⟨.error e, k, depth, s⟩

def nest (c : Context) (form : Value) (env : Environment) (k : Stack) (depth : Nat) (s : Store) :
    Machine :=
  match form with
  | .pair _ | .null =>
    if c.maxDepth ≤ depth then ⟨.error (.eval (.depthLimit c.maxDepth)), k, depth, s⟩
    else ⟨.tail form env, .nested :: k, depth + 1, s⟩
  | form => perform (evaluate c form env k) k depth s

def step (c : Context) (m : Machine) : Machine :=
  match m with
  | ⟨.eval form env, k, depth, s⟩ => nest c form env k depth s
  | ⟨.tail form env, .call :: k, depth, s⟩ => nest c form env k depth s
  | ⟨.tail form env, k, depth, s⟩ => perform (evaluate c form env k) k depth s
  | ⟨.apply f args, k, depth, s⟩ => perform (apply c f args k) k depth s
  | ⟨.template v env level, k, depth, s⟩ => perform (template v env level k) k depth s
  | ⟨.value v, waiting :: k, depth, s⟩ =>
    perform (resume c v waiting k) k (depthWithout waiting depth) s
  | ⟨.escape id v, waiting :: k, depth, s⟩ =>
    match waiting with
    | .capture target =>
      if target == id then ⟨.value v, k, depth, s⟩ else ⟨.escape id v, k, depth, s⟩
    | waiting => ⟨.escape id v, k, depthWithout waiting depth, s⟩
  | ⟨.error e, waiting :: k, depth, s⟩ => ⟨.error e, k, depthWithout waiting depth, s⟩
  | m => m

end Machine
end HygienicScheme
