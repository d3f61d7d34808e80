import HygienicScheme.Decimal.Shortest

/-!
How doubles are written. There is never an exponent. `plain` writes the shortest digits and no
fraction for a whole number; `written`, the form in which programs see floats, keeps one decimal
on whole numbers below 10¹⁶ and has names for the values that are not finite.
-/
namespace HygienicScheme.Decimal

def Digits.positional (d : Digits) : String :=
  let digits := Nat.toDigits 10 d.digits
  if 0 ≤ d.exponent then String.ofList (digits ++ List.replicate d.exponent.toNat '0')
  else
    let places := (-d.exponent).toNat
    let padded := List.replicate (places + 1 - digits.length) '0' ++ digits
    let split := padded.length - places
    String.ofList (padded.take split ++ '.' :: padded.drop split)

def plain (x : Float) : String :=
  match Kind.ofFloat x with
  | .nan => "NaN"
  | .infinite negative => if negative then "-inf" else "inf"
  | .finite p => p.signText ++ (shortest p).positional

def written (x : Float) : String :=
  match Kind.ofFloat x with
  | .nan => "+nan.0"
  | .infinite negative => if negative then "-inf.0" else "+inf.0"
  | .finite p =>
    match p.whole? with
    | some n =>
      if n < Nat.pow 10 16 then s!"{p.signText}{n}.0" else p.signText ++ (shortest p).positional
    | none => p.signText ++ (shortest p).positional

end HygienicScheme.Decimal
