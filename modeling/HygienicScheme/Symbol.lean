/-!
Identifiers. A symbol carries, beside its name, the expansion that introduced it: the phase of
that expansion and the index of the use within it. Two symbols are the same identifier only when
all three agree, so identifiers of different uses never meet. A stamp is written
`name$phase` or `name$phase.use`; `ofStampText` reads what `debugText` writes.
-/
namespace HygienicScheme

structure Symbol where
  name : String
  phase : Int
  useIndex : Nat
deriving DecidableEq, Inhabited, Repr

namespace Symbol

def userPhase : Int := -1

def user (name : String) : Symbol := ⟨name, userPhase, 0⟩

def isStamped (s : Symbol) : Bool := s.phase != userPhase

def stamp (s : Symbol) (phase : Int) (useIndex : Nat) : Symbol := ⟨s.name, phase, useIndex⟩

def unstamped (s : Symbol) : Symbol := user s.name

def debugText (s : Symbol) : String :=
  if s.isStamped then
    if s.useIndex > 0 then s!"{s.name}${s.phase}.{s.useIndex}" else s!"{s.name}${s.phase}"
  else s.name

def le (a b : Symbol) : Bool :=
  a.name < b.name || (a.name == b.name &&
    (decide (a.phase < b.phase) || (a.phase == b.phase && decide (a.useIndex ≤ b.useIndex))))

def digits? : List Char → Option Nat
  | [] => none
  | cs => if cs.all Char.isDigit then
      some (cs.foldl (fun n c => 10 * n + (c.toNat - '0'.toNat)) 0) else none

def splitStamp (cs : List Char) : Option (List Char × List Char) :=
  let (after, before) := cs.reverse.span (· != '$')
  match before with
  | [] => none
  | _ :: name => some (name.reverse, after.reverse)

def stampOf? (cs : List Char) : Option (Int × Nat) := do
  let (phase, use) := cs.span (· != '.')
  let phase ← digits? phase
  let use ← match use with
    | [] => some 0
    | _ :: use => digits? use
  if phase < 1 <<< 63 ∧ use < 1 <<< 32 then some (phase, use) else none

def ofStampText (text : String) : Symbol :=
  match splitStamp text.toList with
  | some (name, stamp) =>
    match name, stampOf? stamp with
    | _ :: _, some (phase, use) => ⟨String.ofList name, phase, use⟩
    | _, _ => user text
  | none => user text

end Symbol
end HygienicScheme
