import HygienicScheme.Machine.Step

/-!
Running the machine. A run has ended when a value, an error or an escape meets the empty stack; an
exit whose call is no longer on the stack ends in an error.
-/
namespace HygienicScheme

namespace Machine

def outcome? (m : Machine) : Option Outcome :=
  match m.task, m.stack with
  | .value v, [] => some (.value v)
  | .error e, [] => some (.error e)
  | .escape id _, [] => some (.error (.eval (.deadExit id)))
  | _, _ => none

def run (c : Context) : Nat → Machine → Outcome × Store
  | 0, m => (.unfinished, m.store)
  | steps + 1, m =>
    match m.outcome? with
    | some outcome => (outcome, m.store)
    | none => run c steps (m.step c)

def allowance : Nat := 1 <<< 62

def start (form : Value) (env : Environment) (s : Store) : Machine := ⟨.tail form env, [], 0, s⟩

end Machine
end HygienicScheme
