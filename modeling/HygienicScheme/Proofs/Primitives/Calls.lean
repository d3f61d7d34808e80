import HygienicScheme.Primitive.Routine
import HygienicScheme.Proofs.Primitives.Guarded

/-!
# Primitives under the checks of the program

What a primitive does when it is called, with every access that could stop the program: it takes its
arguments by their position, borrows the cells it reads and writes for as long as it needs them, and
shows arguments in messages while it may still hold a cell.
-/
namespace HygienicScheme

namespace Guarded

variable {α : Type}

/-! Arguments -/

def reject (procedure expected : String) (v : Value) : Guarded α := do
  let text ← written v
  throw (.type (.argument procedure expected v.typeName text))

def int (procedure : String) : Value → Guarded Int64 := check (Argument.int procedure)

def index (procedure : String) : Value → Guarded Nat := check (Argument.index procedure)

def string (procedure : String) : Value → Guarded String := check (Argument.string procedure)

def char (procedure : String) : Value → Guarded Char := check (Argument.char procedure)

def pair (procedure : String) : Value → Guarded Address := check (Argument.pair procedure)

def vector (procedure : String) : Value → Guarded Address := check (Argument.vector procedure)

def number (procedure : String) : Value → Guarded Number := check (Number.ofValue procedure)

def list (procedure : String) (v : Value) : Guarded (List Value) := do
  match ← survey (·.properList? v) with
  | some items => pure items
  | none => reject procedure "proper list" v

/-! Numbers -/

def accumulate (procedure : String) (step : Number → Number → Except Error Number)
    (start : Number) (args : List Value) : Guarded Value := do
  let combine (n : Number) (v : Value) : Guarded Number := do
    let next ← number procedure v
    step n next
  let result ← args.foldlM combine start
  return result.toValue

def unary (procedure : String) (f : Number → Except Error Number) (args : List Value) :
    Guarded Value := do
  let n ← number procedure (← item args 0)
  let result ← f n
  return result.toValue

def subtractive (procedure : String) (alone : Number → Except Error Number)
    (step : Number → Number → Except Error Number) (args : List Value) : Guarded Value := do
  let first ← number procedure (← item args 0)
  if args.length = 1 then
    let result ← alone first
    return result.toValue
  else accumulate procedure step first (← itemsFrom args 1)

def integers (procedure : String) (f : Int64 → Int64 → Guarded Number) (args : List Value) :
    Guarded Value := do
  let a ← int procedure (← item args 0)
  let b ← int procedure (← item args 1)
  let result ← f a b
  return result.toValue

def modulo (a b : Int64) : Guarded Number := do
  if b = 0 then throw (.eval (.divisionByZero (some "modulo")))
  else if Number.divisionOverflows a b then throw (.overflow "modulo")
  else
    let r ← remainder a b
    if r ≠ 0 ∧ decide (r < 0) ≠ decide (b < 0) then return .int (← sum r b) else return .int r

def extremum (procedure : String) (keeps : Float → Float → Bool) (args : List Value) :
    Guarded Value := do
  let numbers ← args.mapM (number procedure)
  let first ← item numbers 0
  let best := (← itemsFrom numbers 1).foldl (Number.pick keeps) first
  return (if numbers.any Number.isFloat then .float best.toFloat else best.toValue)

def windows : List α → List (List α)
  | a :: b :: more => [a, b] :: windows (b :: more)
  | _ => []

def neighbours (holds : α → α → Bool) (items : List α) : Guarded Bool :=
  (windows items).allM fun window => do
    let a ← item window 0
    let b ← item window 1
    return holds a b

def comparison (procedure : String) (ints : Int → Int → Bool) (floats : Float → Float → Bool)
    (args : List Value) : Guarded Value := do
  let numbers ← args.mapM (number procedure)
  return .bool (← neighbours (Number.compare ints floats) numbers)

def test (procedure : String) (ints : Int → Bool) (floats : Float → Bool) (args : List Value) :
    Guarded Value := do
  match ← number procedure (← item args 0) with
  | .int n => return .bool (ints n.toInt)
  | .float x => return .bool (floats x)

def parity (procedure : String) (holds : Int64 → Bool) (args : List Value) : Guarded Value := do
  let n ← int procedure (← item args 0)
  return .bool (holds (← remainder n 2))

def numeric (op : Numeric) (args : List Value) : Guarded Value :=
  match op with
  | .add => accumulate "+" Number.add (.int 0) args
  | .multiply => accumulate "*" Number.multiply (.int 1) args
  | .subtract => subtractive "-" Number.negate Number.subtract args
  | .divide => subtractive "/" (Number.divide (.int 1)) Number.divide args
  | .quotient => integers "quotient" (fun a b => Number.quotient a b) args
  | .remainder => integers "remainder" (fun a b => Number.remainder a b) args
  | .modulo => integers "modulo" modulo args
  | .abs => unary "abs" Number.abs args
  | .max => extremum "max" (fun a b => a ≥ b) args
  | .min => extremum "min" (fun a b => a ≤ b) args
  | .floor => unary "floor" (fun n => .ok (n.round Float.floor)) args
  | .ceiling => unary "ceiling" (fun n => .ok (n.round Float.ceil)) args
  | .round => unary "round" (fun n => .ok (n.round Number.roundEven)) args
  | .truncate => unary "truncate" (fun n => .ok (n.round Number.truncate)) args
  | .sqrt => unary "sqrt" (fun n => .ok n.sqrt) args
  | .expt => do
    let b ← number "expt" (← item args 0)
    let e ← number "expt" (← item args 1)
    let result ← b.expt e
    return result.toValue
  | .toInexact => unary "exact->inexact" (fun n => .ok (.float n.toFloat)) args
  | .toExact => unary "inexact->exact" Number.toExact args
  | .toText => do
    let n ← number "number->string" (← item args 0)
    let text ← written n.toValue
    Build.string text
  | .ofText => do
    let text ← string "string->number" (← item args 0)
    return match Number.ofText? text with
      | some n => n.toValue
      | none => .bool false
  | .equal => comparison "=" (· == ·) (· == ·) args
  | .less => comparison "<" (fun a b => a < b) (fun a b => a < b) args
  | .greater => comparison ">" (fun a b => a > b) (fun a b => a > b) args
  | .atMost => comparison "<=" (fun a b => a ≤ b) (fun a b => a ≤ b) args
  | .atLeast => comparison ">=" (fun a b => a ≥ b) (fun a b => a ≥ b) args
  | .isZero => test "zero?" (· == 0) (· == 0) args
  | .isPositive => test "positive?" (fun n => n > 0) (fun x => x > 0) args
  | .isNegative => test "negative?" (fun n => n < 0) (fun x => x < 0) args
  | .isOdd => parity "odd?" (· != 0) args
  | .isEven => parity "even?" (· == 0) args
  | .isNumber => do
    let v ← item args 0
    return .bool v.isNumber
  | .isInteger => do
    let v ← item args 0
    return match v with
      | .int _ => .bool true
      | .float x => .bool (Number.float x).isWhole
      | _ => .bool false

/-! Lists -/

def carOf (procedure : String) (v : Value) : Guarded Value := do
  let a ← pair procedure v
  reading (.pair a) (look fun s => (s.pairAt a).car)

def cdrOf (procedure : String) (v : Value) : Guarded Value := do
  let a ← pair procedure v
  reading (.pair a) (look fun s => (s.pairAt a).cdr)

def path (steps : List (Value → Guarded Value)) (args : List Value) : Guarded Value := do
  let v ← item args 0
  steps.foldlM (fun v step => step v) v

def setPair (procedure : String) (update : Value → Pair → Pair) (args : List Value) :
    Guarded Value := do
  let v ← item args 1
  let a ← pair procedure (← item args 0)
  writing (.pair a) (change fun s => { s with pairs := s.pairs.modify a (update v) })
  return .unspecified

def appendItems : List Value → Guarded (List Value)
  | [] => pure []
  | v :: more => do
    let items ← list "append" v
    return items ++ (← appendItems more)

def tail (args : List Value) : Guarded Value := do
  let k ← index "list-tail" (← item args 1)
  let v ← item args 0
  match ← survey (Listing.tail? · k v) with
  | some v => pure v
  | none => throw (.range (.pastEnd "list-tail" k))

def ended : Option α → Guarded α
  | some a => pure a
  | none => throw .endless

def matching (same : Listing.Equivalence) (a b : Value) : Guarded Bool := do
  ended (← survey (same · a b))

def findTail (procedure : String) (same : Listing.Equivalence) (args : List Value) :
    Nat → Value → Guarded Value
  | 0, _ => throw .endless
  | steps + 1, rest =>
    match rest with
    | .pair a => do
      let v ← item args 0
      let (found, next) ← reading (.pair a) do
        let p ← look (·.pairAt a)
        let found ← matching same v p.car
        return (found, p.cdr)
      if found then pure rest else findTail procedure same args steps next
    | .null => pure (.bool false)
    | rest => reject procedure "proper list" rest

def memberBy (procedure : String) (same : Listing.Equivalence) (args : List Value) :
    Guarded Value := do
  let items ← item args 1
  let steps ← look (·.walkBound)
  findTail procedure same args steps items

def findEntry (procedure : String) (same : Listing.Equivalence) (args : List Value) :
    List Value → Guarded Value
  | [] => pure (.bool false)
  | entry :: more => do
    let key ← carOf procedure entry
    let v ← item args 0
    if ← matching same v key then pure entry else findEntry procedure same args more

def assocBy (procedure : String) (same : Listing.Equivalence) (args : List Value) :
    Guarded Value := do
  let entries ← list procedure (← item args 1)
  findEntry procedure same args entries

def listing (op : Listing) (args : List Value) : Guarded Value :=
  match op with
  | .cons => do
    let a ← item args 0
    let b ← item args 1
    Build.cons a b
  | .car => do carOf "car" (← item args 0)
  | .cdr => do cdrOf "cdr" (← item args 0)
  | .caar => path [carOf "caar", carOf "caar"] args
  | .cadr => path [cdrOf "cadr", carOf "cadr"] args
  | .cdar => path [carOf "cdar", cdrOf "cdar"] args
  | .cddr => path [cdrOf "cddr", cdrOf "cddr"] args
  | .caddr => path [cdrOf "caddr", cdrOf "caddr", carOf "caddr"] args
  | .setCar => setPair "set-car!" (fun v p => { p with car := v }) args
  | .setCdr => setPair "set-cdr!" (fun v p => { p with cdr := v }) args
  | .list => Build.list args
  | .length => do
    let items ← list "length" (← item args 0)
    return .int (Int64.ofNat items.length)
  | .append =>
    match args.getLast? with
    | none => return .null
    | some last => do
      let items ← appendItems args.dropLast
      Build.listWithTail items last
  | .reverse => do
    let items ← list "reverse" (← item args 0)
    Build.list items.reverse
  | .tail => tail args
  | .ref => do
    let k ← index "list-ref" (← item args 1)
    let rest ← tail args
    match ← survey (·.car? rest) with
    | some v => return v
    | none => throw (.range (.pastEnd "list-ref" k))
  | .memq => memberBy "memq" Listing.identical args
  | .memv => memberBy "memv" Listing.identical args
  | .member => memberBy "member" Store.equal? args
  | .assq => assocBy "assq" Listing.identical args
  | .assv => assocBy "assv" Listing.identical args
  | .assoc => assocBy "assoc" Store.equal? args
  | .isPair => return .bool (← item args 0).isPair
  | .isNull | .isNil => return .bool (← item args 0).isNull
  | .isList => do
    let v ← item args 0
    let items ← survey (·.properList? v)
    return .bool items.isSome

/-! Equivalences and tests of type -/

def typeTest (holds : Value → Bool) (args : List Value) : Guarded Value := do
  let v ← item args 0
  return .bool (holds v)

def predicate (op : Predicate) (args : List Value) : Guarded Value :=
  match op with
  | .eq | .eqv => do
    let a ← item args 0
    let b ← item args 1
    return .bool (a.eqv b)
  | .equal => do
    let a ← item args 0
    let b ← item args 1
    return .bool (← matching Store.equal? a b)
  | .isFalse => typeTest (fun v => !v.isTrue) args
  | .isBoolean => typeTest (fun v => v matches .bool _) args
  | .isSymbol => typeTest (fun v => v matches .symbol _) args
  | .isString => typeTest (fun v => v matches .string _) args
  | .isChar => typeTest (fun v => v matches .char _) args
  | .isVector => typeTest (fun v => v matches .vector _) args
  | .isProcedure => typeTest Value.isProcedure args
  | .isPromise => typeTest (fun v => v matches .promise _) args

/-! Symbols, strings and characters -/

def textComparison (procedure : String) (holds : String → String → Bool) (args : List Value) :
    Guarded Value := do
  let texts ← args.mapM (string procedure)
  return .bool (← neighbours holds texts)

def substring (args : List Value) : Guarded Value := do
  let text ← string "substring" (← item args 0)
  let start ← index "substring" (← item args 1)
  let stop ← match args[2]? with
    | some stop => index "substring" stop
    | none => pure text.length
  if stop < start ∨ text.toList.length < stop then
    throw (.range (.substring start stop text.toList.length))
  else
    let part ← itemsBetween text.toList start stop
    Build.string (String.ofList part)

def textual (op : Textual) (args : List Value) : Guarded Value :=
  match op with
  | .symbolToString => do
    match ← item args 0 with
    | .symbol s => Build.string s.name
    | v => reject "symbol->string" "symbol" v
  | .stringToSymbol => do return .name (← string "string->symbol" (← item args 0))
  | .length => do
    let text ← string "string-length" (← item args 0)
    return .int (Int64.ofNat text.length)
  | .append => do
    let texts ← args.mapM (string "string-append")
    Build.string (String.join texts)
  | .substring => substring args
  | .ref => do
    let text ← string "string-ref" (← item args 0)
    let k ← index "string-ref" (← item args 1)
    match text.toList[k]? with
    | some c => return .char c
    | none => throw (.range (.stringIndex k))
  | .equal => textComparison "string=?" (· == ·) args
  | .less => textComparison "string<?" (fun a b => a < b) args
  | .toList => do
    let text ← string "string->list" (← item args 0)
    Build.list (text.toList.map .char)
  | .ofList => do
    let items ← list "list->string" (← item args 0)
    let cs ← items.mapM (char "list->string")
    Build.string (String.ofList cs)
  | .charToInteger => do
    let c ← char "char->integer" (← item args 0)
    return .int (Int64.ofNat c.toNat)
  | .integerToChar => do
    let n ← int "integer->char" (← item args 0)
    match Textual.character? n.toInt with
    | some c => return .char c
    | none => throw (.range (.character n))

/-! Vectors -/

def setVector (args : List Value) : Guarded Value := do
  let a ← vector "vector-set!" (← item args 0)
  writing (.vector a) do
    let k ← index "vector-set!" (← item args 1)
    let length ← look fun s => (s.vectorAt a).size
    if k < length then
      let x ← item args 2
      change fun s => { s with vectors := s.vectors.modify a fun items => items.setIfInBounds k x }
      return .unspecified
    else throw (.range (.vectorIndex "vector-set!" k length))

def vectorial (memory : Nat) (op : Vectorial) (args : List Value) : Guarded Value :=
  match op with
  | .vector => Build.vector args.toArray
  | .make => do
    let k ← index "make-vector" (← item args 0)
    if memory < k then panic .memory
    else Build.vector (Array.replicate k (args[1]?.getD (.int 0)))
  | .ref => do
    let a ← vector "vector-ref" (← item args 0)
    reading (.vector a) do
      let k ← index "vector-ref" (← item args 1)
      let items ← look (·.vectorAt a)
      match items[k]? with
      | some v => return v
      | none => throw (.range (.vectorIndex "vector-ref" k items.size))
  | .set => setVector args
  | .length => do
    let a ← vector "vector-length" (← item args 0)
    let length ← reading (.vector a) (look fun s => (s.vectorAt a).size)
    return .int (Int64.ofNat length)
  | .toList => do
    let a ← vector "vector->list" (← item args 0)
    let items ← reading (.vector a) (look (·.vectorAt a))
    Build.list items.toList
  | .ofList => do
    let items ← list "list->vector" (← item args 0)
    Build.vector items.toArray
  | .fill => do
    let a ← vector "vector-fill!" (← item args 0)
    writing (.vector a) do
      let v ← item args 1
      change fun s => { s with vectors := s.vectors.modify a fun items => items.map fun _ => v }
    return .unspecified

/-! All routines -/

def messagePart : Value → Guarded String
  | .string s => pure s.text
  | v => written v

end Guarded

/-- The call of a primitive with arguments that its arity accepts. -/
def Routine.call (memory : Nat) (r : Routine) (args : List Value) : Guarded Value :=
  match r with
  | .numeric op => Guarded.numeric op args
  | .listing op => Guarded.listing op args
  | .predicate op => Guarded.predicate op args
  | .textual op => Guarded.textual op args
  | .vectorial op => Guarded.vectorial memory op args
  | .makePromise => do
    let v ← Guarded.item args 0
    if v.isProcedure then Build.promise v else Guarded.reject "make-promise" "procedure" v
  | .error => do
    let parts ← args.mapM Guarded.messagePart
    let message := if parts.isEmpty then "Error" else " ".intercalate parts
    Guarded.throw (.eval (.signalled message))

end HygienicScheme
