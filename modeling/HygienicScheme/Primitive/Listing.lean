import HygienicScheme.Primitive.Argument
import HygienicScheme.Store.Equality

/-! What the primitives on pairs and lists do. -/
namespace HygienicScheme.Listing

def carOf (procedure : String) (v : Value) : Action Value := do
  let a ← Argument.pair procedure v
  Action.inspect fun s => (s.pairAt a).car

def cdrOf (procedure : String) (v : Value) : Action Value := do
  let a ← Argument.pair procedure v
  Action.inspect fun s => (s.pairAt a).cdr

def path (steps : List (Value → Action Value)) (v : Value) : Action Value :=
  steps.foldlM (fun v step => step v) v

def setPair (change : Pair → Pair) (a : Address) : Action Unit :=
  Action.change fun s => { s with pairs := s.pairs.modify a change }

def appendItems : List Value → Action (List Value)
  | [] => pure []
  | v :: more => do
    let items ← Argument.list "append" v
    return items ++ (← appendItems more)

def tail? (s : Store) : Nat → Value → Option Value
  | 0, v => some v
  | n + 1, .pair a => tail? s n (s.pairAt a).cdr
  | _ + 1, _ => none

def tailOf (v : Value) (count : Nat) : Action Value := do
  match ← Action.inspect (tail? · count v) with
  | some v => pure v
  | none => throw (.range (.pastEnd "list-tail" count))

abbrev Equivalence := Store → Value → Value → Option Bool

def identical : Equivalence := fun _ a b => some (a.eqv b)

def matching (same : Equivalence) (a b : Value) : Action Bool := do
  Action.ended (← Action.inspect (same · a b))

def findTail (procedure : String) (same : Equivalence) (v : Value) : Nat → Value → Action Value
  | 0, _ => throw .endless
  | steps + 1, rest => do
    match rest with
    | .pair a =>
      let p ← Action.inspect (·.pairAt a)
      if ← matching same v p.car then pure rest else findTail procedure same v steps p.cdr
    | .null => pure (.bool false)
    | rest => Argument.reject procedure "proper list" rest

def memberBy (procedure : String) (same : Equivalence) (v items : Value) : Action Value := do
  let steps ← Action.inspect (·.walkBound)
  findTail procedure same v steps items

def findEntry (procedure : String) (same : Equivalence) (v : Value) : List Value → Action Value
  | [] => pure (.bool false)
  | entry :: more => do
    let key ← carOf procedure entry
    if ← matching same v key then pure entry else findEntry procedure same v more

def assocBy (procedure : String) (same : Equivalence) (v entries : Value) : Action Value := do
  findEntry procedure same v (← Argument.list procedure entries)

def run (op : Listing) (args : List Value) : Action Value :=
  match op, args with
  | .cons, [a, b] => Build.cons a b
  | .car, [v] => carOf "car" v
  | .cdr, [v] => cdrOf "cdr" v
  | .caar, [v] => path [carOf "caar", carOf "caar"] v
  | .cadr, [v] => path [cdrOf "cadr", carOf "cadr"] v
  | .cdar, [v] => path [carOf "cdar", cdrOf "cdar"] v
  | .cddr, [v] => path [cdrOf "cddr", cdrOf "cddr"] v
  | .caddr, [v] => path [cdrOf "caddr", cdrOf "caddr", carOf "caddr"] v
  | .setCar, [p, v] => do
    setPair (fun pair => { pair with car := v }) (← Argument.pair "set-car!" p)
    return .unspecified
  | .setCdr, [p, v] => do
    setPair (fun pair => { pair with cdr := v }) (← Argument.pair "set-cdr!" p)
    return .unspecified
  | .list, args => Build.list args
  | .length, [v] => do
    let items ← Argument.list "length" v
    return .int (Int64.ofNat items.length)
  | .append, args => do
    match args.getLast? with
    | none => return .null
    | some last =>
      let items ← appendItems args.dropLast
      Build.listWithTail items last
  | .reverse, [v] => do
    let items ← Argument.list "reverse" v
    Build.list items.reverse
  | .tail, [v, k] => do tailOf v (← Argument.index "list-tail" k)
  | .ref, [v, k] => do
    let k ← Argument.index "list-ref" k
    match ← Action.inspect (·.car? (← tailOf v k)) with
    | some v => return v
    | none => throw (.range (.pastEnd "list-ref" k))
  | .memq, [v, items] => memberBy "memq" identical v items
  | .memv, [v, items] => memberBy "memv" identical v items
  | .member, [v, items] => memberBy "member" Store.equal? v items
  | .assq, [v, items] => assocBy "assq" identical v items
  | .assv, [v, items] => assocBy "assv" identical v items
  | .assoc, [v, items] => assocBy "assoc" Store.equal? v items
  | .isPair, [v] => return .bool v.isPair
  | .isNull, [v] | .isNil, [v] => return .bool v.isNull
  | .isList, [v] => return .bool (← Action.properList? v).isSome
  | op, args => Argument.miscounted op.name op.arity args

end HygienicScheme.Listing
