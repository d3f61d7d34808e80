import HygienicScheme.Action

/-! Arguments of the types that primitives ask for. -/
namespace HygienicScheme.Argument

def reject {α : Type} (procedure expected : String) (v : Value) : Action α := do
  throw (.type (.argument procedure expected v.typeName (← Action.writeText v)))

def int (procedure : String) : Value → Action Int64
  | .int n => pure n
  | v => reject procedure "integer" v

def index (procedure : String) (v : Value) : Action Nat := do
  let n ← int procedure v
  if n.toInt < 0 then throw (.range (.negativeIndex procedure n)) else pure n.toInt.toNat

def string (procedure : String) : Value → Action String
  | .string s => pure s.text
  | v => reject procedure "string" v

def char (procedure : String) : Value → Action Char
  | .char c => pure c
  | v => reject procedure "char" v

def pair (procedure : String) : Value → Action Address
  | .pair a => pure a
  | v => reject procedure "pair" v

def vector (procedure : String) : Value → Action Address
  | .vector a => pure a
  | v => reject procedure "vector" v

def list (procedure : String) (v : Value) : Action (List Value) := do
  match ← Action.properList? v with
  | some items => pure items
  | none => reject procedure "proper list" v

def miscounted {α : Type} (procedure : String) (arity : Arity) (args : List Value) : Action α :=
  throw (.arity (some procedure) arity args.length)

end HygienicScheme.Argument
