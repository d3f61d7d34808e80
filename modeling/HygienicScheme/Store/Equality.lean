import HygienicScheme.Store.Basic

/-!
Structural equality: pairs slot by slot, vectors item by item, strings by their text, and all else
by identity. There is no answer where the two values lead around circles side by side.
-/
namespace HygienicScheme.Store

def allPairs (same : Value → Value → Option Bool) : List Value → List Value → Option Bool
  | [], [] => some true
  | a :: as, b :: bs =>
    match same a b with
    | some true => allPairs same as bs
    | answer => answer
  | _, _ => some false

def equalWithin (s : Store) : Nat → Value → Value → Option Bool
  | 0, _, _ => none
  | depth + 1, a, b =>
    match a, b with
    | .pair p, .pair q =>
      if p == q then some true else
        match equalWithin s depth (s.pairAt p).car (s.pairAt q).car with
        | some true => equalWithin s depth (s.pairAt p).cdr (s.pairAt q).cdr
        | answer => answer
    | .vector p, .vector q =>
      if p == q then some true
      else if (s.vectorAt p).size != (s.vectorAt q).size then some false
      else allPairs (equalWithin s depth) (s.vectorAt p).toList (s.vectorAt q).toList
    | .string x, .string y => some (x.text == y.text)
    | a, b => some (a.eqv b)

def equal? (s : Store) (a b : Value) : Option Bool := s.equalWithin s.walkBound a b

end HygienicScheme.Store
