import HygienicScheme.Arity

/-!
The catalogue of primitive procedures: their names, their arities and the order in which they are
listed. A routine looks only at its arguments and the store; a control operation also directs
the evaluation, by applying procedures, leaving contexts or writing output.
-/
namespace HygienicScheme

inductive Numeric
  | add | subtract | multiply | divide | quotient | remainder | modulo | abs | max | min | floor
  | ceiling | round | truncate | sqrt | expt | toInexact | toExact | toText | ofText | equal
  | less | greater | atMost | atLeast | isZero | isPositive | isNegative | isOdd | isEven
  | isNumber | isInteger
deriving DecidableEq, Inhabited, Repr

namespace Numeric

def all : List Numeric :=
  [.add, .subtract, .multiply, .divide, .quotient, .remainder, .modulo, .abs, .max, .min, .floor,
  .ceiling, .round, .truncate, .sqrt, .expt, .toInexact, .toExact, .toText, .ofText, .equal,
  .less, .greater, .atMost, .atLeast, .isZero, .isPositive, .isNegative, .isOdd, .isEven,
  .isNumber, .isInteger]

def name : Numeric → String
  | add => "+"
  | subtract => "-"
  | multiply => "*"
  | divide => "/"
  | quotient => "quotient"
  | remainder => "remainder"
  | modulo => "modulo"
  | abs => "abs"
  | max => "max"
  | min => "min"
  | floor => "floor"
  | ceiling => "ceiling"
  | round => "round"
  | truncate => "truncate"
  | sqrt => "sqrt"
  | expt => "expt"
  | toInexact => "exact->inexact"
  | toExact => "inexact->exact"
  | toText => "number->string"
  | ofText => "string->number"
  | equal => "="
  | less => "<"
  | greater => ">"
  | atMost => "<="
  | atLeast => ">="
  | isZero => "zero?"
  | isPositive => "positive?"
  | isNegative => "negative?"
  | isOdd => "odd?"
  | isEven => "even?"
  | isNumber => "number?"
  | isInteger => "integer?"

def arity : Numeric → Arity
  | add | multiply => .atLeast 0
  | subtract | divide | max | min => .atLeast 1
  | quotient | remainder | modulo | expt => .exactly 2
  | equal | less | greater | atMost | atLeast => .atLeast 2
  | _ => .exactly 1

end Numeric

inductive Listing
  | cons | car | cdr | caar | cadr | cdar | cddr | caddr | setCar | setCdr | list | length
  | append | reverse | tail | ref | memq | memv | member | assq | assv | assoc | isPair | isNull
  | isNil | isList
deriving DecidableEq, Inhabited, Repr

namespace Listing

def all : List Listing :=
  [.cons, .car, .cdr, .caar, .cadr, .cdar, .cddr, .caddr, .setCar, .setCdr, .list, .length,
  .append, .reverse, .tail, .ref, .memq, .memv, .member, .assq, .assv, .assoc, .isPair, .isNull,
  .isNil, .isList]

def name : Listing → String
  | cons => "cons"
  | car => "car"
  | cdr => "cdr"
  | caar => "caar"
  | cadr => "cadr"
  | cdar => "cdar"
  | cddr => "cddr"
  | caddr => "caddr"
  | setCar => "set-car!"
  | setCdr => "set-cdr!"
  | list => "list"
  | length => "length"
  | append => "append"
  | reverse => "reverse"
  | tail => "list-tail"
  | ref => "list-ref"
  | memq => "memq"
  | memv => "memv"
  | member => "member"
  | assq => "assq"
  | assv => "assv"
  | assoc => "assoc"
  | isPair => "pair?"
  | isNull => "null?"
  | isNil => "nil?"
  | isList => "list?"

def arity : Listing → Arity
  | cons | setCar | setCdr | tail | ref | memq | memv | member | assq | assv | assoc => .exactly 2
  | list | append => .atLeast 0
  | _ => .exactly 1

end Listing

inductive Predicate
  | eq | eqv | equal | isFalse | isBoolean | isSymbol | isString | isChar | isVector
  | isProcedure | isPromise
deriving DecidableEq, Inhabited, Repr

namespace Predicate

def all : List Predicate :=
  [.eq, .eqv, .equal, .isFalse, .isBoolean, .isSymbol, .isString, .isChar, .isVector,
  .isProcedure, .isPromise]

def name : Predicate → String
  | eq => "eq?"
  | eqv => "eqv?"
  | equal => "equal?"
  | isFalse => "not"
  | isBoolean => "boolean?"
  | isSymbol => "symbol?"
  | isString => "string?"
  | isChar => "char?"
  | isVector => "vector?"
  | isProcedure => "procedure?"
  | isPromise => "promise?"

def arity : Predicate → Arity
  | eq | eqv | equal => .exactly 2
  | _ => .exactly 1

end Predicate

inductive Textual
  | symbolToString | stringToSymbol | length | append | substring | ref | equal | less | toList
  | ofList | charToInteger | integerToChar
deriving DecidableEq, Inhabited, Repr

namespace Textual

def all : List Textual :=
  [.symbolToString, .stringToSymbol, .length, .append, .substring, .ref, .equal, .less, .toList,
  .ofList, .charToInteger, .integerToChar]

def name : Textual → String
  | symbolToString => "symbol->string"
  | stringToSymbol => "string->symbol"
  | length => "string-length"
  | append => "string-append"
  | substring => "substring"
  | ref => "string-ref"
  | equal => "string=?"
  | less => "string<?"
  | toList => "string->list"
  | ofList => "list->string"
  | charToInteger => "char->integer"
  | integerToChar => "integer->char"

def arity : Textual → Arity
  | append => .atLeast 0
  | substring => .between 2 3
  | ref => .exactly 2
  | equal | less => .atLeast 1
  | _ => .exactly 1

end Textual

inductive Vectorial
  | vector | make | ref | set | length | toList | ofList | fill
deriving DecidableEq, Inhabited, Repr

namespace Vectorial

def all : List Vectorial :=
  [.vector, .make, .ref, .set, .length, .toList, .ofList, .fill]

def name : Vectorial → String
  | vector => "vector"
  | make => "make-vector"
  | ref => "vector-ref"
  | set => "vector-set!"
  | length => "vector-length"
  | toList => "vector->list"
  | ofList => "list->vector"
  | fill => "vector-fill!"

def arity : Vectorial → Arity
  | vector => .atLeast 0
  | make => .between 1 2
  | ref | fill => .exactly 2
  | set => .exactly 3
  | _ => .exactly 1

end Vectorial

inductive Routine
  | numeric (op : Numeric)
  | listing (op : Listing)
  | predicate (op : Predicate)
  | textual (op : Textual)
  | vectorial (op : Vectorial)
  | makePromise
  | error
deriving DecidableEq, Inhabited, Repr

namespace Routine

def all : List Routine :=
  Numeric.all.map numeric ++ Listing.all.map listing ++ Predicate.all.map predicate
    ++ Textual.all.map textual ++ Vectorial.all.map vectorial ++ [makePromise, error]

def name : Routine → String
  | numeric op => op.name
  | listing op => op.name
  | predicate op => op.name
  | textual op => op.name
  | vectorial op => op.name
  | makePromise => "make-promise"
  | error => "error"

def arity : Routine → Arity
  | numeric op => op.arity
  | listing op => op.arity
  | predicate op => op.arity
  | textual op => op.arity
  | vectorial op => op.arity
  | makePromise => .exactly 1
  | error => .atLeast 0

end Routine

inductive Control
  | apply | map | forEach | callWithCurrentContinuation | callCC | eval | force | display | write
  | newline | currentOutputPort
deriving DecidableEq, Inhabited, Repr

namespace Control

def all : List Control :=
  [.apply, .map, .forEach, .callWithCurrentContinuation, .callCC, .eval, .force, .display,
  .write, .newline, .currentOutputPort]

def name : Control → String
  | apply => "apply"
  | map => "map"
  | forEach => "for-each"
  | callWithCurrentContinuation => "call-with-current-continuation"
  | callCC => "call/cc"
  | eval => "eval"
  | force => "force"
  | display => "display"
  | write => "write"
  | newline => "newline"
  | currentOutputPort => "current-output-port"

def arity : Control → Arity
  | apply => .atLeast 1
  | map | forEach => .atLeast 2
  | eval | display | write => .between 1 2
  | newline => .between 0 1
  | currentOutputPort => .exactly 0
  | _ => .exactly 1

end Control

inductive Primitive
  | routine (r : Routine)
  | control (c : Control)
deriving DecidableEq, Inhabited, Repr

namespace Primitive

def all : List Primitive := Routine.all.map routine ++ Control.all.map control

def name : Primitive → String
  | routine r => r.name
  | control c => c.name

def arity : Primitive → Arity
  | routine r => r.arity
  | control c => c.arity

def find? (name : String) : Option Primitive := all.find? (·.name == name)

end Primitive
end HygienicScheme
