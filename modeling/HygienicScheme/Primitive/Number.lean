import HygienicScheme.Decimal.Literal
import HygienicScheme.Primitive.Argument
import HygienicScheme.Text.Blank

/-!
Numbers: 64-bit integers and doubles. Integer arithmetic is exact or reports overflow; as soon as
one operand is a double the operation is done on doubles.
-/
namespace HygienicScheme

inductive Number
  | int (n : Int64)
  | float (x : Float)
deriving Inhabited

namespace Number

def toFloat : Number → Float
  | int n => Float.ofInt n.toInt
  | float x => x

def toValue : Number → Value
  | int n => .int n
  | float x => .float x

def isFloat : Number → Bool
  | int _ => false
  | float _ => true

def ofValue (procedure : String) : Value → Action Number
  | .int n => pure (int n)
  | .float x => pure (float x)
  | v => Argument.reject procedure "number" v

def fit (operation : String) (n : Int) : Except Error Int64 :=
  match Decimal.whole? n with
  | some n => .ok n
  | none => .error (.overflow operation)

def combine (operation : String) (onInts : Int → Int → Int) (onFloats : Float → Float → Float) :
    Number → Number → Except Error Number
  | int a, int b => (fit operation (onInts a.toInt b.toInt)).map int
  | a, b => .ok (float (onFloats a.toFloat b.toFloat))

def add : Number → Number → Except Error Number := combine "addition" (· + ·) (· + ·)

def multiply : Number → Number → Except Error Number := combine "multiplication" (· * ·) (· * ·)

def subtract : Number → Number → Except Error Number := combine "subtraction" (· - ·) (· - ·)

def negate : Number → Except Error Number := combine "negation" (· - ·) (· - ·) (int 0)

def divide (a b : Number) : Except Error Number :=
  match a, b with
  | int m, int n =>
    if n = 0 then .error (.eval (.divisionByZero none))
    else if m.toInt.tmod n.toInt = 0 then (fit "division" (m.toInt.tdiv n.toInt)).map int
    else .ok (float (a.toFloat / b.toFloat))
  | _, _ => .ok (float (a.toFloat / b.toFloat))

def divisionOverflows (a b : Int64) : Bool := a == Int64.minValue && b == -1

def integerDivision (procedure : String) (f : Int → Int → Int) (a b : Int64) :
    Except Error Number :=
  if b = 0 then .error (.eval (.divisionByZero (some procedure)))
  else if divisionOverflows a b then .error (.overflow procedure)
  else (fit procedure (f a.toInt b.toInt)).map int

def quotient : Int64 → Int64 → Except Error Number := integerDivision "quotient" Int.tdiv

def remainder : Int64 → Int64 → Except Error Number := integerDivision "remainder" Int.tmod

def modulo : Int64 → Int64 → Except Error Number := integerDivision "modulo" Int.fmod

def abs : Number → Except Error Number
  | int n => (fit "abs" n.toInt.natAbs).map int
  | float x => .ok (float x.abs)

def pick (keeps : Float → Float → Bool) (best n : Number) : Number :=
  if keeps best.toFloat n.toFloat then best else n

def extremum (keeps : Float → Float → Bool) (first : Number) (more : List Number) : Number :=
  let best := more.foldl (pick keeps) first
  if (first :: more).any isFloat then float best.toFloat else best

def roundEven (x : Float) : Float :=
  let big : Float := Float.ofNat (1 <<< 52)
  let rounded := (x.abs + big) - big
  if x.abs < big then if x.toBits.toNat < 1 <<< 63 then rounded else -rounded else x

def truncate (x : Float) : Float := if x < 0 then x.ceil else x.floor

def round (f : Float → Float) : Number → Number
  | int n => int n
  | float x => float (f x)

def sqrt : Number → Number
  | int n =>
    let x := Float.ofInt n.toInt
    let root := x.sqrt.round.toInt64
    if 0 ≤ n.toInt ∧ root.toInt * root.toInt = n.toInt then int root else float x.sqrt
  | float x => float x.sqrt

def maxExponent : Nat := 1 <<< 32 - 1

def times? (a b : Int64) : Option Int64 := Decimal.whole? (a.toInt * b.toInt)

def timesPower? (product base : Int64) (exponent : Nat) : Option Int64 :=
  if exponent = 0 then some product
  else if exponent = 1 then times? product base
  else do
    let product ← if exponent % 2 = 1 then times? product base else some product
    let square ← times? base base
    timesPower? product square (exponent / 2)
termination_by exponent

def power? (base : Int64) (exponent : Nat) : Option Int64 :=
  if maxExponent < exponent then none else timesPower? 1 base exponent

def expt : Number → Number → Except Error Number
  | int b, int e =>
    if 0 ≤ e.toInt then
      match power? b e.toInt.toNat with
      | some n => .ok (int n)
      | none => .error (.overflow "expt")
    else .ok (float ((int b).toFloat.pow (int e).toFloat))
  | b, e => .ok (float (b.toFloat.pow e.toFloat))

def toExact : Number → Except Error Number
  | int n => .ok (int n)
  | float x =>
    match Decimal.Kind.ofFloat x with
    | .finite p =>
      match p.whole? with
      | some n =>
        if n < 9 * Nat.pow 10 18 then .ok (int (Int64.ofInt (Decimal.signed p.negative n)))
        else .error (.type (.noExactInteger (Decimal.plain x)))
      | none => .error (.type (.noExactInteger (Decimal.plain x)))
    | _ => .error (.type (.noExactInteger (Decimal.plain x)))

def isWhole : Number → Bool
  | int _ => true
  | float x =>
    match Decimal.Kind.ofFloat x with
    | .finite p => p.whole?.isSome
    | _ => false

def compare (ints : Int → Int → Bool) (floats : Float → Float → Bool) : Number → Number → Bool
  | int a, int b => ints a.toInt b.toInt
  | a, b => floats a.toFloat b.toFloat

def chain {α : Type} (holds : α → α → Bool) : List α → Bool
  | a :: b :: more => holds a b && chain holds (b :: more)
  | _ => true

def ofText? (text : String) : Option Number :=
  let cs := Text.trim text.toList
  match Decimal.integer? cs with
  | some n => some (int n)
  | none =>
    if cs.any Char.isDigit && cs.all Decimal.isLiteralChar then
      (Decimal.Literal.ofChars? cs).map fun l => float l.toFloat
    else none

end Number
end HygienicScheme
