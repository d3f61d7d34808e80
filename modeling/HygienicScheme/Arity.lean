/-! How many arguments a procedure takes. -/
namespace HygienicScheme

inductive Arity
  | exactly (n : Nat)
  | atLeast (n : Nat)
  | between (low high : Nat)
deriving DecidableEq, Inhabited, Repr

namespace Arity

def accepts : Arity → Nat → Bool
  | exactly n, count => count == n
  | atLeast n, count => n ≤ count
  | between low high, count => low ≤ count && count ≤ high

def text : Arity → String
  | exactly n => s!"{n}"
  | atLeast n => s!"at least {n}"
  | between low high => s!"{low} to {high}"

end Arity
end HygienicScheme
