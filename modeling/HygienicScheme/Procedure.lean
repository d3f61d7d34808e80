import HygienicScheme.Environment

/-!
Closures: made from a parameter list and a body, and called by binding the arguments in a fresh
frame inside the environment they were made in.
-/
namespace HygienicScheme.Procedure

def params (s : Store) : List Symbol → List Value → Except Error (List Symbol)
  | seen, [] => .ok seen.reverse
  | seen, .symbol x :: more =>
    if seen.contains x then .error (.malformed "lambda" (.duplicateFormal x.name))
    else params s (x :: seen) more
  | _, v :: _ => .error (.malformed "lambda" (.formal (s.writeText v)))

def restParam (s : Store) (params : List Symbol) : Value → Except Error (Option Symbol)
  | .null => .ok none
  | .symbol x =>
    if params.contains x then .error (.malformed "lambda" (.duplicateFormal x.name))
    else .ok (some x)
  | v => .error (.malformed "lambda" (.restFormal (s.writeText v)))

def formals (s : Store) (v : Value) : Except Error (List Symbol × Option Symbol) :=
  match s.splitList? v with
  | none => .error (.malformed "lambda" .circularFormals)
  | some (items, tail) => do
    let required ← params s [] items
    let rest ← restParam s required tail
    return (required, rest)

def make (v : Value) (body : List Value) (env : Environment) (name : Option String) :
    Action Value := do
  if body.isEmpty then Action.malformed "lambda" .emptyBody else
    let parsed ← Action.inspect (formals · v)
    let (params, rest) ← parsed
    Build.closure ⟨params, rest, body, env, name⟩

def arity (c : Closure) : Arity :=
  match c.rest with
  | some _ => .atLeast c.params.length
  | none => .exactly c.params.length

def bindAll : List (Symbol × Value) → List (Symbol × Value) →
    Except Error (List (Symbol × Value))
  | bound, [] => .ok bound
  | bound, (x, v) :: more => do
    let bound ← addBinding bound x v
    bindAll bound more

def bind (c : Closure) (args : List Value) : Action Environment := do
  if (arity c).accepts args.length then
    let bound ← bindAll [] (c.params.zip args)
    let bound ← match c.rest with
      | none => pure bound
      | some rest => do
        let extra ← Build.list (args.drop c.params.length)
        let bound ← addBinding bound rest extra
        pure bound
    Build.child c.env bound
  else throw (.arity c.name (arity c) args.length)

end HygienicScheme.Procedure
