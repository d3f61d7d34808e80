import HygienicScheme.Store.Basic

/-!
Lists in a store. Whether a chain of pairs is circular is found out by two pointers that follow it,
one of them at half the speed of the other: on a circle they meet again.
-/
namespace HygienicScheme.Store

def samePair : Value → Value → Bool
  | .pair a, .pair b => a == b
  | _, _ => false

/-- Follows at most this many pairs, collecting their items in reverse. The slow pointer takes a
step with every second pair. The answer is `none` where these pairs do not decide the matter, and
`some none` where the pointers meet on a circle. -/
def chase (s : Store) : Nat → Bool → List Value → Value → Value →
    Option (Option (List Value × Value))
  | 0, _, _, _, .pair _ => none
  | steps + 1, second, items, slow, .pair a =>
    let p := s.pairAt a
    if second then
      let slow := (s.cdr? slow).getD .null
      if samePair slow p.cdr then some none
      else chase s steps false (p.car :: items) slow p.cdr
    else chase s steps true (p.car :: items) slow p.cdr
  | _, _, items, _, tail => some (some (items.reverse, tail))

def splitList? (s : Store) (v : Value) : Option (List Value × Value) :=
  (s.chase (2 * s.pairs.size + 1) false [] v v).join

def properList? (s : Store) (v : Value) : Option (List Value) :=
  match s.splitList? v with
  | some (items, .null) => some items
  | _ => none

def dropPairs (s : Store) : Nat → Value → Value
  | 0, v => v
  | n + 1, v => s.dropPairs n ((s.cdr? v).getD .null)

end HygienicScheme.Store
