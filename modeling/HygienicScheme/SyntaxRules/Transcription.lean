import HygienicScheme.Environment
import HygienicScheme.SyntaxRules.Match

/-!
Filling in a template. Identifiers that the template brings itself get the stamp of the use, so
that they are the same identifier within one use and in no other; literals and names of keywords
pass through bare. Under an ellipsis the variables bound to sequences advance together.
-/
namespace HygienicScheme

/-- A use of a transformer: where it stands and what stamps its identifiers. -/
structure MacroUse where
  transformer : Transformer
  env : Environment
  phase : Int
  index : Nat

namespace MacroUse

def introduce (u : MacroUse) (s : Store) (x : Symbol) : Symbol :=
  if u.transformer.isLiteral x || s.isKeyword u.env x then x.unstamped
  else x.stamp u.phase u.index

def fail {α : Type} (u : MacroUse) (problem : ShapeProblem) : Action α :=
  throw (.shape u.transformer.name problem)

def drivers (vars : List Symbol) (bs : Bindings) : List (Symbol × List Binding) :=
  vars.filterMap fun x =>
    match bs.lookup x with
    | some (.many sequence) => some (x, sequence)
    | _ => none

def rounds : Nat → List (Symbol × List Binding) → List Bindings
  | 0, _ => []
  | n + 1, sequences =>
    (sequences.filterMap fun (x, sequence) => sequence.head?.map (x, ·))
      :: rounds n (sequences.map fun (x, sequence) => (x, sequence.tail))

def repeated (u : MacroUse) (vars : List Symbol) (emit : Bindings → Action Value) :
    Nat → Bindings → Action (List Value)
  | 0, bs => do return [← emit bs]
  | ellipses + 1, bs =>
    match drivers vars bs with
    | [] => u.fail .nothingToRepeat
    | (first, sequence) :: more =>
      let length := sequence.length
      match more.find? (·.2.length != length) with
      | some (other, others) =>
        throw (.ambiguous u.transformer.name first.name length other.name others.length)
      | none => do
        let round (row : Bindings) : Action (List Value) :=
          repeated u vars emit ellipses (row ++ bs)
        return (← (rounds length ((first, sequence) :: more)).mapM round).flatten

mutual

def transcribe (u : MacroUse) (t : Template) (bs : Bindings) : Action Value :=
  match t with
  | .variable x =>
    match bs.lookup x with
    | some (.one v) => pure v
    | some (.many _) => u.fail (.missingEllipsis x.name)
    | none => u.fail (.unbound x.name)
  | .free x => do return .symbol (← Action.inspect (u.introduce · x))
  | .constant v => pure v
  | .list items => do
    let (items, tail) ← transcribeItems u items bs
    Build.listWithTail items tail
  | .vector items => do
    let (items, _) ← transcribeItems u items bs
    Build.vector items.toArray

def transcribeItems (u : MacroUse) (items : TemplateSeq) (bs : Bindings) :
    Action (List Value × Value) :=
  match items with
  | .done => pure ([], .null)
  | .tail t => do return ([], ← transcribe u t bs)
  | .item t ellipses more => do
    let vs ← repeated u t.vars (transcribe u t) ellipses bs
    let (items, tail) ← transcribeItems u more bs
    return (vs ++ items, tail)

end

end MacroUse
end HygienicScheme
