import HygienicScheme.Symbol

/-! The special forms of the evaluator. Only unstamped identifiers name them. -/
namespace HygienicScheme

inductive SpecialForm
  | quote | quasiquote | unquote | lambda | conditional | define | assign | sequence | conjunction
  | disjunction | defineSyntax | letSyntax
deriving DecidableEq, Inhabited, Repr

namespace SpecialForm

def ofName? (name : String) : Option SpecialForm :=
  match name with
  | "quote" => some quote
  | "quasiquote" => some quasiquote
  | "unquote" | "unquote-splicing" => some unquote
  | "lambda" => some lambda
  | "if" => some conditional
  | "define" => some define
  | "set!" => some assign
  | "begin" => some sequence
  | "and" => some conjunction
  | "or" => some disjunction
  | "define-syntax" => some defineSyntax
  | "let-syntax" | "letrec-syntax" => some letSyntax
  | _ => none

def ofSymbol? (s : Symbol) : Option SpecialForm :=
  if s.isStamped then none else ofName? s.name

def keyword : SpecialForm → String
  | quote => "quote"
  | quasiquote => "quasiquote"
  | unquote => "unquote"
  | lambda => "lambda"
  | conditional => "if"
  | define => "define"
  | assign => "set!"
  | sequence => "begin"
  | conjunction => "and"
  | disjunction => "or"
  | defineSyntax => "define-syntax"
  | letSyntax => "let-syntax"

end SpecialForm
end HygienicScheme
