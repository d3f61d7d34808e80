import HygienicScheme.Primitive.Catalogue
import HygienicScheme.Symbol

/-!
Values. Pairs, vectors, closures and promises are addresses into a store; a string carries its
text with the number it got when it was made, so equal texts may be different strings.
-/
namespace HygienicScheme

abbrev Address := Nat

structure StringRef where
  id : Nat
  text : String
deriving DecidableEq, Inhabited, Repr

inductive Value
  | null
  | unspecified
  | bool (b : Bool)
  | int (n : Int64)
  | float (x : Float)
  | char (c : Char)
  | string (s : StringRef)
  | symbol (s : Symbol)
  | pair (a : Address)
  | vector (a : Address)
  | closure (a : Address)
  | primitive (p : Primitive)
  | escape (id : Nat)
  | promise (a : Address)
  | outputPort (name : String)
deriving Inhabited

namespace Value

def name (text : String) : Value := symbol (.user text)

def isTrue : Value → Bool
  | bool false => false
  | _ => true

def isNull : Value → Bool
  | null => true
  | _ => false

def isPair : Value → Bool
  | pair _ => true
  | _ => false

def isProcedure : Value → Bool
  | closure _ | primitive _ | escape _ => true
  | _ => false

def isNumber : Value → Bool
  | int _ | float _ => true
  | _ => false

def symbol? : Value → Option Symbol
  | symbol s => some s
  | _ => none

def isNamed (v : Value) (name : String) : Bool :=
  match v with
  | symbol s => s.name == name
  | _ => false

def typeName : Value → String
  | null => "empty list"
  | unspecified => "unspecified"
  | bool _ => "boolean"
  | int _ => "integer"
  | float _ => "float"
  | char _ => "char"
  | string _ => "string"
  | symbol _ => "symbol"
  | pair _ => "pair"
  | vector _ => "vector"
  | closure _ | primitive _ | escape _ => "procedure"
  | promise _ => "promise"
  | outputPort _ => "port"

def typeTag : Value → Nat
  | null => 0
  | unspecified => 1
  | bool _ => 2
  | int _ | float _ => 3
  | char _ => 4
  | string _ => 5
  | symbol _ => 6
  | pair _ => 7
  | vector _ => 8
  | closure _ | primitive _ | escape _ => 9
  | promise _ => 10
  | outputPort _ => 11

def sameType (a b : Value) : Bool := a.typeTag == b.typeTag

/-- Identity: numbers, characters and symbols by value, floats by their bits, and everything that
lives in a store by its address. -/
def eqv : Value → Value → Bool
  | null, null | unspecified, unspecified => true
  | bool a, bool b => a == b
  | int a, int b => a == b
  | float a, float b => a.toBits == b.toBits
  | char a, char b => a == b
  | symbol a, symbol b => a == b
  | string a, string b => a == b
  | pair a, pair b => a == b
  | vector a, vector b => a == b
  | closure a, closure b => a == b
  | primitive a, primitive b => a == b
  | escape a, escape b => a == b
  | promise a, promise b => a == b
  | outputPort a, outputPort b => a == b
  | _, _ => false

end Value
end HygienicScheme
