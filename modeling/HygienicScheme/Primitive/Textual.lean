import HygienicScheme.Primitive.Number

/-! What the primitives on symbols, strings and characters do. -/
namespace HygienicScheme.Textual

def slice (cs : List Char) (start stop : Nat) : Except Error String :=
  if stop < start ∨ cs.length < stop then .error (.range (.substring start stop cs.length))
  else .ok (String.ofList ((cs.take stop).drop start))

def comparison (procedure : String) (holds : String → String → Bool) (args : List Value) :
    Action Value := do
  let texts ← args.mapM (Argument.string procedure)
  return .bool (Number.chain holds texts)

def character? (n : Int) : Option Char :=
  if h : n.toNat.isValidChar then if 0 ≤ n then some (Char.ofNatAux n.toNat h) else none else none

def run (op : Textual) (args : List Value) : Action Value :=
  match op, args with
  | .symbolToString, [.symbol s] => Build.string s.name
  | .symbolToString, [v] => Argument.reject "symbol->string" "symbol" v
  | .stringToSymbol, [v] => do return .name (← Argument.string "string->symbol" v)
  | .length, [v] => do
    let text ← Argument.string "string-length" v
    return .int (Int64.ofNat text.length)
  | .append, args => do
    let texts ← args.mapM (Argument.string "string-append")
    Build.string (String.join texts)
  | .substring, v :: start :: more => do
    let text ← Argument.string "substring" v
    let start ← Argument.index "substring" start
    let stop ← match more with
      | [] => pure text.length
      | stop :: _ => Argument.index "substring" stop
    let part ← slice text.toList start stop
    Build.string part
  | .ref, [v, k] => do
    let text ← Argument.string "string-ref" v
    let k ← Argument.index "string-ref" k
    match text.toList[k]? with
    | some c => return .char c
    | none => throw (.range (.stringIndex k))
  | .equal, args => comparison "string=?" (· == ·) args
  | .less, args => comparison "string<?" (fun a b => a < b) args
  | .toList, [v] => do
    let text ← Argument.string "string->list" v
    Build.list (text.toList.map .char)
  | .ofList, [v] => do
    let items ← Argument.list "list->string" v
    let cs ← items.mapM (Argument.char "list->string")
    Build.string (String.ofList cs)
  | .charToInteger, [v] => do
    let c ← Argument.char "char->integer" v
    return .int (Int64.ofNat c.toNat)
  | .integerToChar, [v] => do
    let n ← Argument.int "integer->char" v
    match character? n.toInt with
    | some c => return .char c
    | none => throw (.range (.character n))
  | op, args => Argument.miscounted op.name op.arity args

end HygienicScheme.Textual
