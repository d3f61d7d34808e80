import HygienicScheme.Store.List

/-! The forms that have a meaning inside a quasiquoted template. -/
namespace HygienicScheme

inductive QuasiKeyword
  | quasiquote
  | unquote
  | unquoteSplicing
deriving DecidableEq, Inhabited, Repr

def QuasiKeyword.name : QuasiKeyword → String
  | quasiquote => "quasiquote"
  | unquote => "unquote"
  | unquoteSplicing => "unquote-splicing"

def QuasiKeyword.ofSymbol? (s : Symbol) : Option QuasiKeyword :=
  if s.isStamped then none
  else if s.name == "quasiquote" then some .quasiquote
  else if s.name == "unquote" then some .unquote
  else if s.name == "unquote-splicing" then some .unquoteSplicing
  else none

def Store.quasiForm? (s : Store) (v : Value) : Option (QuasiKeyword × Value) :=
  match v with
  | .pair _ =>
    match s.properList? v with
    | some [.symbol head, operand] => (QuasiKeyword.ofSymbol? head).map (·, operand)
    | _ => none
  | _ => none

end HygienicScheme
