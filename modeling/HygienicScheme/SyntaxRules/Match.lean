import HygienicScheme.Store.Equality
import HygienicScheme.Store.List
import HygienicScheme.Store.Printer

/-!
Matching a form against the pattern of a rule. A variable is bound to what it matched, under an
ellipsis to one binding for each repetition. Where a list pattern ends in a dotted rest, the rest
is bound to the very pairs of the form.
-/
namespace HygienicScheme

inductive Binding
  | one (v : Value)
  | many (bs : List Binding)
deriving Inhabited

abbrev Bindings := List (Symbol × Binding)

inductive Mismatch
  | literal (name : String) (found : Value)
  | constant (expected found : Value)
  | notList (found : Value)
  | notVector (found : Value)
  | circular
  | tooFew (least found : Nat)
  | improper
  | count (exact found : Nat) (dotted : Bool)

namespace Binding

mutual

def text (s : Store) : Binding → String
  | one v => s!"Direct({s.debugText v})"
  | many bs => "Repeated[" ++ ", ".intercalate (texts s bs) ++ "]"

def texts (s : Store) : List Binding → List String
  | [] => []
  | b :: bs => b.text s :: texts s bs

end

end Binding

def Mismatch.text (s : Store) : Mismatch → String
  | literal name found => s!"expected literal {name}, found {s.writeText found}"
  | constant expected found => s!"expected {s.writeText expected}, found {s.writeText found}"
  | notList found => s!"expected a list, found {s.writeText found}"
  | notVector found => s!"expected a vector, found {s.writeText found}"
  | circular => "circular list cannot match"
  | tooFew least found => s!"expected at least {least} elements, found {found}"
  | improper => "improper list cannot match an ellipsis pattern"
  | count exact found dotted =>
    s!"expected exactly {exact} elements, found {found}"
      ++ if dotted then " and a dotted tail" else ""

namespace SyntaxRules

def matchEach (matchItem : Value → Except Mismatch Bindings) :
    List Value → Except Mismatch (List Bindings)
  | [] => .ok []
  | v :: more => do
    let b ← matchItem v
    let bs ← matchEach matchItem more
    return b :: bs

def gather (vars : List Symbol) (repetitions : List Bindings) : Bindings :=
  vars.map fun x => (x, .many (repetitions.filterMap (·.lookup x)))

structure Subject where
  count : Nat
  tail : Value
  whole : Value

mutual

def matchPattern (s : Store) (p : Pattern) (v : Value) : Except Mismatch Bindings :=
  match p with
  | .wildcard => .ok []
  | .variable x => .ok [(x, .one v)]
  | .literal x => if v.isNamed x.name then .ok [] else .error (.literal x.name v)
  | .constant c => if s.equal? c v = some true then .ok [] else .error (.constant c v)
  | .list items =>
    match v with
    | .pair _ | .null =>
      match s.splitList? v with
      | none => .error .circular
      | some (vs, tail) => matchItems s items ⟨vs.length, tail, v⟩ 0 vs
    | v => .error (.notList v)
  | .vector items =>
    match v with
    | .vector a =>
      let vs := (s.vectorAt a).toList
      matchItems s items ⟨vs.length, .null, v⟩ 0 vs
    | v => .error (.notVector v)

def matchItems (s : Store) (items : PatternSeq) (subject : Subject) (done : Nat)
    (vs : List Value) : Except Mismatch Bindings :=
  match items with
  | .item p more =>
    let least := done + 1 + more.leading.length
    if subject.count < least then .error (.tooFew least subject.count) else
      match vs with
      | [] => .error (.tooFew least subject.count)
      | v :: vs => do
        let b ← matchPattern s p v
        let bs ← matchItems s more subject (done + 1) vs
        return b ++ bs
  | .repeated p after =>
    let least := done + after.leading.length
    if !subject.tail.isNull then .error .improper
    else if subject.count < least then .error (.tooFew least subject.count)
    else do
      let many := subject.count - least
      let repetitions ← matchEach (matchPattern s p) (vs.take many)
      let bs ← matchItems s after subject (done + many) (vs.drop many)
      return gather p.vars repetitions ++ bs
  | .rest p => matchPattern s p (s.dropPairs done subject.whole)
  | .done =>
    if subject.count == done && subject.tail.isNull then .ok []
    else .error (.count done subject.count !subject.tail.isNull)

end

end SyntaxRules

def Rule.bindings (s : Store) (r : Rule) (form : Value) : Except Mismatch Bindings :=
  SyntaxRules.matchPattern s r.pattern form

end HygienicScheme
