import HygienicScheme.Decimal.Shortest

/-!
Reading numbers. A decimal literal is a sign, digits with at most one point and at least one digit,
and an exponent with digits of its own; its value is the nearest double. A whole literal is a sign
and digits, in some base, and must fit in 64 bits.
-/
namespace HygienicScheme.Decimal

def whole? (n : Int) : Option Int64 :=
  if Int64.minValue.toInt ≤ n ∧ n ≤ Int64.maxValue.toInt then some (Int64.ofInt n) else none

def sign : List Char → Bool × List Char
  | '-' :: cs => (true, cs)
  | '+' :: cs => (false, cs)
  | cs => (false, cs)

def digitValue (c : Char) : Nat :=
  if c.isDigit then c.toNat - '0'.toNat
  else if c.isLower then c.toNat - 'a'.toNat + 10
  else c.toNat - 'A'.toNat + 10

def number (base : Nat) (cs : List Char) : Nat := cs.foldl (fun n c => base * n + digitValue c) 0

def signed (negative : Bool) (n : Nat) : Int := if negative then -(n : Int) else n

def integer? (cs : List Char) : Option Int64 :=
  let (negative, digits) := sign cs
  if !digits.isEmpty && digits.all Char.isDigit then whole? (signed negative (number 10 digits))
  else none

structure Literal where
  negative : Bool
  digits : Nat
  exponent : Int
deriving DecidableEq, Repr

namespace Literal

def exponent? : List Char → Option Int
  | [] => some 0
  | c :: cs =>
    if c == 'e' || c == 'E' then
      let (negative, digits) := sign cs
      if !digits.isEmpty && digits.all Char.isDigit then some (signed negative (number 10 digits))
      else none
    else none

def ofChars? (cs : List Char) : Option Literal :=
  let (negative, cs) := sign cs
  let (whole, cs) := cs.span Char.isDigit
  let (places, cs) := match cs with
    | '.' :: cs => cs.span Char.isDigit
    | cs => ([], cs)
  if whole.isEmpty && places.isEmpty then none
  else (exponent? cs).map fun e => ⟨negative, number 10 (whole ++ places), e - places.length⟩

def toFloat (l : Literal) : Float :=
  let size := (width l.digits : Int) + l.exponent
  if l.digits = 0 ∨ size < -400 then rounded l.negative 0 1
  else if 400 < size then rounded l.negative (1 <<< 1024) 1
  else rounded l.negative (l.digits * Nat.pow 10 l.exponent.toNat) (Nat.pow 10 (-l.exponent).toNat)

end Literal

def isLiteralChar (c : Char) : Bool :=
  c.isDigit || c == '.' || c == 'e' || c == 'E' || c == '+' || c == '-'

end HygienicScheme.Decimal
