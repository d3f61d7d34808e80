import HygienicScheme.Symbol

/-!
What a reader can read: trees of constants, symbols, pairs and vectors. A datum has no identity;
it gets one when it is placed in a store.
-/
namespace HygienicScheme

inductive Datum
  | null
  | bool (b : Bool)
  | int (n : Int64)
  | float (x : Float)
  | char (c : Char)
  | string (text : String)
  | symbol (s : Symbol)
  | pair (car cdr : Datum)
  | vector (items : List Datum)
deriving Inhabited

namespace Datum

def name (text : String) : Datum := symbol (.user text)

def listWithTail (items : List Datum) (tail : Datum) : Datum := items.foldr pair tail

def list (items : List Datum) : Datum := listWithTail items null

def stamped : Datum → Datum
  | symbol s => symbol (.ofStampText s.name)
  | pair car cdr => pair car.stamped cdr.stamped
  | vector items => vector (items.map stamped)
  | null => null
  | bool b => bool b
  | int n => int n
  | float x => float x
  | char c => char c
  | string text => string text

end Datum
end HygienicScheme
