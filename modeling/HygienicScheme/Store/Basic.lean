import HygienicScheme.Datum
import HygienicScheme.SyntaxRules.Basic

/-!
The store: everything that a program can change. It holds the pairs, vectors, closures and
promises that values point to, the frames of the environments, the text written so far, and the
counters from which fresh strings, phases, uses and exits are numbered. An address outside the
store reads as a pair of empty lists, an empty vector and so on.
-/
namespace HygienicScheme

/-- A chain of frames, the innermost first. Frames are shared: an assignment through one
environment is seen through every other that holds the frame. -/
structure Environment where
  frame : Address
  outer : List Address
deriving DecidableEq, Inhabited, Repr

structure Pair where
  car : Value
  cdr : Value
deriving Inhabited

structure Closure where
  params : List Symbol
  rest : Option Symbol
  body : List Value
  env : Environment
  /-- The name under which it was defined, for reports. -/
  name : Option String
deriving Inhabited

inductive Promise
  | delayed (thunk : Value)
  | forced (value : Value)
deriving Inhabited

structure Frame where
  bindings : List (Symbol × Value)
  transformers : List (String × Transformer)
deriving Inhabited

structure Store where
  pairs : Array Pair
  vectors : Array (Array Value)
  closures : Array Closure
  promises : Array Promise
  frames : Array Frame
  output : String
  /-- How many strings were made. -/
  strings : Nat
  /-- The phase of the latest expansion. -/
  phase : Nat
  /-- How many uses were transcribed in that phase. -/
  uses : Nat
  /-- How many exits were handed out. -/
  exits : Nat
deriving Inhabited

abbrev Build := StateM Store

namespace Store

def empty : Store :=
  { pairs := #[], vectors := #[], closures := #[], promises := #[], frames := #[], output := ""
    strings := 0, phase := 0, uses := 0, exits := 0 }

def pairAt (s : Store) (a : Address) : Pair := s.pairs.getD a ⟨.null, .null⟩

def vectorAt (s : Store) (a : Address) : Array Value := s.vectors.getD a #[]

def closureAt (s : Store) (a : Address) : Closure := s.closures.getD a default

def promiseAt (s : Store) (a : Address) : Promise := s.promises.getD a default

def frameAt (s : Store) (a : Address) : Frame := s.frames.getD a ⟨[], []⟩

def car? (s : Store) : Value → Option Value
  | .pair a => some (s.pairAt a).car
  | _ => none

def cdr? (s : Store) : Value → Option Value
  | .pair a => some (s.pairAt a).cdr
  | _ => none

def cells (s : Store) : Nat := s.pairs.size + s.vectors.size

def walkBound (s : Store) : Nat := (s.cells + 2) * (s.cells + 2)

end Store

namespace Build

def cons (car cdr : Value) : Build Value :=
  modifyGet fun s => (.pair s.pairs.size, { s with pairs := s.pairs.push ⟨car, cdr⟩ })

def string (text : String) : Build Value :=
  modifyGet fun s => (.string ⟨s.strings, text⟩, { s with strings := s.strings + 1 })

def vector (items : Array Value) : Build Value :=
  modifyGet fun s => (.vector s.vectors.size, { s with vectors := s.vectors.push items })

def closure (c : Closure) : Build Value :=
  modifyGet fun s => (.closure s.closures.size, { s with closures := s.closures.push c })

def promise (thunk : Value) : Build Value :=
  modifyGet fun s =>
    (.promise s.promises.size, { s with promises := s.promises.push (.delayed thunk) })

def consReversed : List Value → Value → Build Value
  | [], tail => pure tail
  | item :: more, tail => do consReversed more (← cons item tail)

def listWithTail (items : List Value) (tail : Value) : Build Value :=
  consReversed items.reverse tail

def list (items : List Value) : Build Value := listWithTail items .null

end Build

mutual

/-- Gives a datum its identity. -/
def Datum.place : Datum → Build Value
  | .null => pure .null
  | .bool b => pure (.bool b)
  | .int n => pure (.int n)
  | .float x => pure (.float x)
  | .char c => pure (.char c)
  | .string text => Build.string text
  | .symbol s => pure (.symbol s)
  | .pair car cdr => do
    let car ← car.place
    Build.cons car (← cdr.place)
  | .vector items => do Build.vector (← Datum.placeAll items).toArray

def Datum.placeAll : List Datum → Build (List Value)
  | [] => pure []
  | d :: more => do
    let v ← d.place
    return v :: (← Datum.placeAll more)

end
end HygienicScheme
