import HygienicScheme.Environment
import HygienicScheme.Quasiquote

/-!
The states of the evaluator. It is a machine: its task says what to do next, and its stack what
waits for the value. No evaluation inside another uses anything but this stack. The depth is the
number of nested evaluations that have begun and not ended, which is the number of `nested` entries
of the stack; a form in tail position begins none.
-/
namespace HygienicScheme

structure Context where
  /-- How many evaluations may be nested. -/
  maxDepth : Nat
  /-- Whether a definition at the top level may replace another. -/
  redefine : Bool
  global : Environment
  outputName : String
deriving Inhabited

inductive Pending
  /-- The end of a nested evaluation. -/
  | nested
  /-- The end of an application that a primitive began; a form left in tail position is evaluated
  as a nested one. -/
  | call
  | operator (operands : Value) (env : Environment)
  | operands (f : Value) (done more : List Value) (env : Environment)
  | branch (consequent : Value) (alternative : Option Value) (env : Environment)
  | definition (x : Symbol) (env : Environment)
  | assignment (x : Symbol) (env : Environment)
  | body (more : List Value) (env : Environment)
  | conjunction (more : List Value) (env : Environment)
  | disjunction (more : List Value) (env : Environment)
  | mapping (f : Value) (columns : List (List Value)) (done : List Value)
  | iteration (f : Value) (columns : List (List Value))
  /-- The call that made the exit with this number. -/
  | capture (id : Nat)
  | forcing (promise : Address)
  | quasiForm (keyword : QuasiKeyword)
  | quasiSplice (rest : Value) (env : Environment) (level : Nat)
  | quasiAppend (items : List Value)
  | quasiRest (rest : Value) (env : Environment) (level : Nat)
  | quasiCons (car : Value)
  | quasiVector
deriving Inhabited

abbrev Stack := List Pending

inductive Task
  /-- Evaluates a form that is not in tail position. -/
  | eval (form : Value) (env : Environment)
  /-- Evaluates a form in tail position. -/
  | tail (form : Value) (env : Environment)
  | apply (f : Value) (args : List Value)
  /-- Builds what a quasiquoted template stands for. -/
  | template (v : Value) (env : Environment) (level : Nat)
  | value (v : Value)
  | escape (id : Nat) (v : Value)
  | error (e : Error)
deriving Inhabited

structure Machine where
  task : Task
  stack : Stack
  depth : Nat
  store : Store
deriving Inhabited

/-- What a form came to. An evaluation is `unfinished` when it was given up after the steps it was
allowed. -/
inductive Outcome
  | value (v : Value)
  | error (e : Error)
  | unfinished
deriving Inhabited

end HygienicScheme
