import HygienicScheme.Error
import HygienicScheme.Store.List
import HygienicScheme.Store.Printer

/-!
Actions on a store that may fail. What an action did to the store before it failed stays done.
-/
namespace HygienicScheme

abbrev Action := EStateM Error Store

instance : MonadLift Build Action where
  monadLift build := fun s =>
    match build s with
    | (a, s) => .ok a s

instance : MonadLift (Except Error) Action where
  monadLift result := fun s =>
    match result with
    | .ok a => .ok a s
    | .error e => .error e s

namespace Action

def inspect {α : Type} (f : Store → α) : Action α := fun s =>
  let a := f s
  .ok a s

def change (f : Store → Store) : Action Unit := fun s => .ok () (f s)

def ended {α : Type} : Option α → Action α
  | some a => pure a
  | none => throw .endless

def writeText (v : Value) : Action String := inspect (·.writeText v)

def splitList? (v : Value) : Action (Option (List Value × Value)) := inspect (·.splitList? v)

def properList? (v : Value) : Action (Option (List Value)) := inspect (·.properList? v)

def malformed {α : Type} (keyword : String) (problem : FormProblem) : Action α :=
  throw (.malformed keyword problem)

end Action
end HygienicScheme
