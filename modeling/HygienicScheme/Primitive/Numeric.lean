import HygienicScheme.Primitive.Number

/-! What the numeric primitives do. -/
namespace HygienicScheme.Numeric

open Number (ofValue)

def accumulate (procedure : String) (step : Number → Number → Except Error Number)
    (start : Number) (args : List Value) : Action Value := do
  let combine (n : Number) (v : Value) : Action Number := do
    let next ← ofValue procedure v
    step n next
  let result ← args.foldlM combine start
  return result.toValue

def unary (procedure : String) (f : Number → Except Error Number) (v : Value) : Action Value := do
  let n ← ofValue procedure v
  let result ← f n
  return result.toValue

def rounding (procedure : String) (f : Float → Float) : Value → Action Value :=
  unary procedure fun n => .ok (n.round f)

def integers (procedure : String) (f : Int64 → Int64 → Except Error Number) (a b : Value) :
    Action Value := do
  let a ← Argument.int procedure a
  let b ← Argument.int procedure b
  let result ← f a b
  return result.toValue

def extremum (procedure : String) (keeps : Float → Float → Bool) (first : Value)
    (more : List Value) : Action Value := do
  let first ← ofValue procedure first
  let more ← more.mapM (ofValue procedure)
  return (Number.extremum keeps first more).toValue

def comparison (procedure : String) (ints : Int → Int → Bool) (floats : Float → Float → Bool)
    (args : List Value) : Action Value := do
  let numbers ← args.mapM (ofValue procedure)
  return .bool (Number.chain (Number.compare ints floats) numbers)

def test (procedure : String) (ints : Int → Bool) (floats : Float → Bool) (v : Value) :
    Action Value := do
  match ← ofValue procedure v with
  | .int n => return .bool (ints n.toInt)
  | .float x => return .bool (floats x)

def parity (procedure : String) (rest : Int) (v : Value) : Action Value := do
  let n ← Argument.int procedure v
  return .bool (n.toInt % 2 == rest)

def run (op : Numeric) (args : List Value) : Action Value :=
  match op, args with
  | .add, args => accumulate "+" Number.add (.int 0) args
  | .multiply, args => accumulate "*" Number.multiply (.int 1) args
  | .subtract, [v] => unary "-" Number.negate v
  | .subtract, v :: more => do
    let first ← ofValue "-" v
    accumulate "-" Number.subtract first more
  | .divide, [v] => unary "/" (Number.divide (.int 1)) v
  | .divide, v :: more => do
    let first ← ofValue "/" v
    accumulate "/" Number.divide first more
  | .quotient, [a, b] => integers "quotient" Number.quotient a b
  | .remainder, [a, b] => integers "remainder" Number.remainder a b
  | .modulo, [a, b] => integers "modulo" Number.modulo a b
  | .abs, [v] => unary "abs" Number.abs v
  | .max, v :: more => extremum "max" (fun a b => a ≥ b) v more
  | .min, v :: more => extremum "min" (fun a b => a ≤ b) v more
  | .floor, [v] => rounding "floor" Float.floor v
  | .ceiling, [v] => rounding "ceiling" Float.ceil v
  | .round, [v] => rounding "round" Number.roundEven v
  | .truncate, [v] => rounding "truncate" Number.truncate v
  | .sqrt, [v] => unary "sqrt" (fun n => .ok n.sqrt) v
  | .expt, [b, e] => do
    let b ← ofValue "expt" b
    let e ← ofValue "expt" e
    let result ← b.expt e
    return result.toValue
  | .toInexact, [v] => unary "exact->inexact" (fun n => .ok (.float n.toFloat)) v
  | .toExact, [v] => unary "inexact->exact" Number.toExact v
  | .toText, [v] => do
    let n ← ofValue "number->string" v
    Build.string (← Action.writeText n.toValue)
  | .ofText, [v] => do
    let text ← Argument.string "string->number" v
    return match Number.ofText? text with
      | some n => n.toValue
      | none => .bool false
  | .equal, args => comparison "=" (· == ·) (· == ·) args
  | .less, args => comparison "<" (fun a b => a < b) (fun a b => a < b) args
  | .greater, args => comparison ">" (fun a b => a > b) (fun a b => a > b) args
  | .atMost, args => comparison "<=" (fun a b => a ≤ b) (fun a b => a ≤ b) args
  | .atLeast, args => comparison ">=" (fun a b => a ≥ b) (fun a b => a ≥ b) args
  | .isZero, [v] => test "zero?" (· == 0) (· == 0) v
  | .isPositive, [v] => test "positive?" (fun n => n > 0) (fun x => x > 0) v
  | .isNegative, [v] => test "negative?" (fun n => n < 0) (fun x => x < 0) v
  | .isOdd, [v] => parity "odd?" 1 v
  | .isEven, [v] => parity "even?" 0 v
  | .isNumber, [v] => return .bool v.isNumber
  | .isInteger, [v] =>
    return match v with
      | .int _ => .bool true
      | .float x => .bool (Number.float x).isWhole
      | _ => .bool false
  | op, args => Argument.miscounted op.name op.arity args

end HygienicScheme.Numeric
