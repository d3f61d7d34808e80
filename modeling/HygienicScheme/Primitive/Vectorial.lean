import HygienicScheme.Primitive.Argument

/-!
What the primitives on vectors do. `vector-set!` holds its vector while it looks at the index, so
it cannot report a bad index whose text would show that vector.
-/
namespace HygienicScheme.Vectorial

def heldIndex (a : Address) (k : Value) : Action Nat := do
  match k with
  | .int _ => Argument.index "vector-set!" k
  | k =>
    let shown ← Action.inspect fun s => s.print .write k
    if shown.vectors.contains a then throw .conflict
    else throw (.type (.argument "vector-set!" "integer" k.typeName shown.text))

def change (a : Address) (f : Array Value → Array Value) : Action Unit :=
  Action.change fun s => { s with vectors := s.vectors.modify a f }

def run (op : Vectorial) (args : List Value) : Action Value :=
  match op, args with
  | .vector, args => Build.vector args.toArray
  | .make, k :: more => do
    let k ← Argument.index "make-vector" k
    Build.vector (Array.replicate k (more.head?.getD (.int 0)))
  | .ref, [v, k] => do
    let a ← Argument.vector "vector-ref" v
    let k ← Argument.index "vector-ref" k
    let items ← Action.inspect (·.vectorAt a)
    match items[k]? with
    | some v => return v
    | none => throw (.range (.vectorIndex "vector-ref" k items.size))
  | .set, [v, k, x] => do
    let a ← Argument.vector "vector-set!" v
    let k ← heldIndex a k
    let length ← Action.inspect fun s => (s.vectorAt a).size
    if k < length then do
      change a fun items => items.setIfInBounds k x
      return .unspecified
    else throw (.range (.vectorIndex "vector-set!" k length))
  | .length, [v] => do
    let a ← Argument.vector "vector-length" v
    let length ← Action.inspect fun s => (s.vectorAt a).size
    return .int (Int64.ofNat length)
  | .toList, [v] => do
    let a ← Argument.vector "vector->list" v
    let items ← Action.inspect (·.vectorAt a)
    Build.list items.toList
  | .ofList, [v] => do
    let items ← Argument.list "list->vector" v
    Build.vector items.toArray
  | .fill, [v, x] => do
    let a ← Argument.vector "vector-fill!" v
    change a fun items => items.map fun _ => x
    return .unspecified
  | op, args => Argument.miscounted op.name op.arity args

end HygienicScheme.Vectorial
