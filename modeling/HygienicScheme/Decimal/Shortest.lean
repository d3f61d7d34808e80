import HygienicScheme.Decimal.Parts

/-!
The fewest decimal digits that read back as a given double. On the grid of `n` significant digits
only the two neighbours of the value can be nearest to it; the first grid with a neighbour inside
the interval that rounds to the double wins, of two the nearer, and of two equally near the larger.
-/
namespace HygienicScheme.Decimal

structure Digits where
  digits : Nat
  exponent : Int
deriving DecidableEq, Repr

structure Interval where
  low : Nat
  value : Nat
  high : Nat
  den : Nat
  closed : Bool
deriving Repr

namespace Interval

def ofParts (p : Parts) : Interval :=
  let below := if p.mantissa = 1 <<< 52 then 1 else 2
  let scale := 1 <<< (p.exponent - 2).toNat
  { low := (4 * p.mantissa - below) * scale
    value := 4 * p.mantissa * scale
    high := (4 * p.mantissa + 2) * scale
    den := 1 <<< (2 - p.exponent).toNat
    closed := p.mantissa % 2 = 0 }

def contains (i : Interval) (num den : Nat) : Bool :=
  let x := num * i.den
  if i.closed then i.low * den ≤ x && x ≤ i.high * den else i.low * den < x && x < i.high * den

end Interval

def width (n : Nat) : Nat := (Nat.toDigits 10 n).length

def leading (num den : Nat) : Int :=
  if den ≤ num then (width (num / den) : Int) - 1 else -(width ((den - 1) / num) : Int)

def neighbour? (i : Interval) (exponent : Int) : Option Digits :=
  let up := Nat.pow 10 exponent.toNat
  let down := Nat.pow 10 (-exponent).toNat
  let below := i.value * down / (i.den * up)
  let above := below + 1
  let nearer := if 2 * (i.value * down) < (below + above) * (i.den * up) then below else above
  let farther := below + above - nearer
  if i.contains (nearer * up) down then some ⟨nearer, exponent⟩
  else if i.contains (farther * up) down then some ⟨farther, exponent⟩
  else none

def shortestFrom (i : Interval) (first : Int) : Nat → Nat → Digits
  | 0, count =>
    ⟨i.value * Nat.pow 10 (count - first).toNat / i.den / Nat.pow 10 (first - count).toNat,
      first - count⟩
  | tries + 1, count =>
    match neighbour? i (first - count) with
    | some d => d
    | none => shortestFrom i first tries (count + 1)

def Digits.withoutZero (d : Digits) : Digits :=
  if d.digits % 10 = 0 then ⟨d.digits / 10, d.exponent + 1⟩ else d

def shortest (p : Parts) : Digits :=
  if p.mantissa = 0 then ⟨0, 0⟩ else
    let i := Interval.ofParts p
    (shortestFrom i (leading i.value i.den) 17 0).withoutZero

end HygienicScheme.Decimal
