import HygienicScheme.Primitive.Listing
import HygienicScheme.Primitive.Numeric
import HygienicScheme.Primitive.Textual
import HygienicScheme.Primitive.Vectorial

/-! What the primitives that only need their arguments and the store do. -/
namespace HygienicScheme

def Predicate.run (op : Predicate) (args : List Value) : Action Value :=
  match op, args with
  | .eq, [a, b] | .eqv, [a, b] => return .bool (a.eqv b)
  | .equal, [a, b] => return .bool (← Listing.matching Store.equal? a b)
  | .isFalse, [v] => return .bool !v.isTrue
  | .isBoolean, [v] => return .bool (v matches .bool _)
  | .isSymbol, [v] => return .bool (v matches .symbol _)
  | .isString, [v] => return .bool (v matches .string _)
  | .isChar, [v] => return .bool (v matches .char _)
  | .isVector, [v] => return .bool (v matches .vector _)
  | .isProcedure, [v] => return .bool v.isProcedure
  | .isPromise, [v] => return .bool (v matches .promise _)
  | op, args => Argument.miscounted op.name op.arity args

namespace Routine

def messagePart : Value → Action String
  | .string s => pure s.text
  | v => Action.writeText v

def run (r : Routine) (args : List Value) : Action Value :=
  match r, args with
  | .numeric op, args => op.run args
  | .listing op, args => op.run args
  | .predicate op, args => op.run args
  | .textual op, args => op.run args
  | .vectorial op, args => op.run args
  | .makePromise, [v] =>
    if v.isProcedure then Build.promise v else Argument.reject "make-promise" "procedure" v
  | .error, args => do
    let parts ← args.mapM messagePart
    let message := if parts.isEmpty then "Error" else " ".intercalate parts
    throw (.eval (.signalled message))
  | r, args => Argument.miscounted r.name r.arity args

end Routine
end HygienicScheme
