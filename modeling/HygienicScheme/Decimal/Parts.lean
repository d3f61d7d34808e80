/-!
The parts of a double. The magnitude of a finite double is `mantissa * 2 ^ exponent`; `rounded`
goes the other way and finds the double nearest to a fraction, ties to the even mantissa.
-/
namespace HygienicScheme.Decimal

structure Parts where
  negative : Bool
  mantissa : Nat
  exponent : Int
deriving DecidableEq, Repr

inductive Kind
  | nan
  | infinite (negative : Bool)
  | finite (parts : Parts)
deriving DecidableEq, Repr

def Kind.ofFloat (x : Float) : Kind :=
  let bits := x.toBits.toNat
  let negative := 1 <<< 63 ≤ bits
  let biased : Nat := bits >>> 52 % 2048
  let fraction : Nat := bits % 1 <<< 52
  if biased = 2047 then if fraction = 0 then .infinite negative else .nan
  else if biased = 0 then .finite ⟨negative, fraction, -1074⟩
  else .finite ⟨negative, fraction + 1 <<< 52, (biased : Int) - 1075⟩

namespace Parts

def whole? (p : Parts) : Option Nat :=
  if 0 ≤ p.exponent then some (p.mantissa <<< p.exponent.toNat)
  else
    let unit := 1 <<< (-p.exponent).toNat
    if p.mantissa % unit = 0 then some (p.mantissa / unit) else none

def signText (p : Parts) : String := if p.negative then "-" else ""

end Parts

def roundEven (num den : Nat) : Nat :=
  let quotient := num / den
  let rest := 2 * (num % den)
  if rest < den then quotient
  else if den < rest then quotient + 1
  else quotient + quotient % 2

def exponentFor (num den : Nat) : Int :=
  let e : Int := (num.log2 : Int) - den.log2 - 53
  let fits := num <<< (-e).toNat < den <<< (e.toNat + 53)
  max (if fits then e else e + 1) (-1074)

def roundedBits (num den : Nat) : Nat :=
  if num = 0 then 0 else
    let e := exponentFor num den
    let mantissa := roundEven (num <<< (-e).toNat) (den <<< e.toNat)
    min ((e + 1074).toNat <<< 52 + mantissa) (2047 <<< 52)

def rounded (negative : Bool) (num den : Nat) : Float :=
  Float.ofBits (UInt64.ofNat (roundedBits num den + if negative then 1 <<< 63 else 0))

end HygienicScheme.Decimal
