import HygienicScheme.Action
import HygienicScheme.Quasiquote

/-!
What becomes of the stamps once a form is expanded. An identifier that the form itself binds, as a
parameter or as the target of a definition, keeps its stamp everywhere in the form; every other
stamped identifier is a free reference and becomes the bare name; and quoted data has no stamps.
Lists that are circular along their tails are left as they are; circles through items of lists and
vectors are not noticed, and a walk around one has no end.
-/
namespace HygienicScheme

namespace Store

def anyOf (test : Value → Option Bool) : List Value → Option Bool
  | [] => some false
  | v :: more =>
    match test v with
    | some false => anyOf test more
    | answer => answer

def stampedWithin (s : Store) : Nat → Value → Option Bool
  | 0, _ => none
  | depth + 1, v =>
    match v with
    | .symbol x => some x.isStamped
    | .pair _ =>
      match s.splitList? v with
      | some (items, tail) => anyOf (s.stampedWithin depth) (items ++ [tail])
      | none => some false
    | .vector a => anyOf (s.stampedWithin depth) (s.vectorAt a).toList
    | _ => some false

def isStamped? (s : Store) (v : Value) : Option Bool := s.stampedWithin s.walkBound v

end Store

namespace Renaming

inductive Head
  | quote
  | quasiquote
  | lambda
  | define
  | defineSyntax
  | other
deriving DecidableEq, Inhabited, Repr

def Head.ofItems : List Value → Head
  | .symbol s :: _ =>
    if s.isStamped then .other
    else if s.name == "quote" then .quote
    else if s.name == "quasiquote" then .quasiquote
    else if s.name == "lambda" then .lambda
    else if s.name == "define" then .define
    else if s.name == "define-syntax" then .defineSyntax
    else .other
  | _ => .other

def stampedSymbols (vs : List Value) : List Symbol :=
  vs.filterMap fun v =>
    match v with
    | .symbol x => if x.isStamped then some x else none
    | _ => none

def formals (s : Store) (v : Value) : List Symbol :=
  match v with
  | .symbol _ => stampedSymbols [v]
  | .pair _ =>
    match s.splitList? v with
    | some (items, tail) => stampedSymbols (items ++ [tail])
    | none => []
  | _ => []

def binders (s : Store) : Nat → Value → Option (List Symbol)
  | 0, _ => none
  | depth + 1, v =>
    match v with
    | .pair _ =>
      match s.splitList? v with
      | none => some []
      | some (items, tail) =>
        match Head.ofItems items with
        | .quote | .defineSyntax => some []
        | .lambda | .define => do
          let target := (items.drop 1).head?.elim [] (formals s)
          let body ← (items.drop 2).mapM (binders s depth)
          return target ++ body.flatten
        | .quasiquote | .other => do
          let bound ← (items ++ [tail]).mapM (binders s depth)
          return bound.flatten
    | _ => some []

def rebuild (f : Value → Action Value) (items : List Value) (tail : Value) : Action Value := do
  let items ← items.mapM f
  Build.listWithTail items (← f tail)

/-- The value without stamps; a part that has none is shared. -/
def strip : Nat → Value → Action Value
  | 0, _ => throw .endless
  | depth + 1, v => do
    let s ← get
    if ← Action.ended (s.isStamped? v) then
      match v with
      | .symbol x => return .symbol x.unstamped
      | .pair _ =>
        match s.splitList? v with
        | some (items, tail) => rebuild (strip depth) items tail
        | none => return v
      | .vector a => do
        let items ← (s.vectorAt a).toList.mapM (strip depth)
        Build.vector items.toArray
      | v => return v
    else return v

mutual

/-- Code keeps the stamps of the binders. -/
def code (bound : List Symbol) (depth : Nat) (v : Value) : Action Value :=
  match depth with
  | 0 => throw .endless
  | depth + 1 => do
    match v with
    | .symbol x => return .symbol (if x.isStamped && !bound.contains x then x.unstamped else x)
    | .pair _ =>
      match (← get).splitList? v with
      | none => return v
      | some (items, tail) =>
        match Head.ofItems items, items, tail with
        | .quote, _ :: data, tail => do
          let data ← rebuild (strip depth) data tail
          Build.cons (.name "quote") data
        | .quasiquote, [_, t], .null => do
          let t ← template bound depth 1 t
          Build.list [.name "quasiquote", t]
        | .defineSyntax, _, _ => return v
        | _, items, tail => rebuild (code bound depth) items tail
    | .vector _ => strip depth v
    | v => return v

/-- In a template only what is unquoted at the outermost level is code. -/
def template (bound : List Symbol) (depth level : Nat) (v : Value) : Action Value :=
  match depth with
  | 0 => throw .endless
  | depth + 1 => do
    match (← get).quasiForm? v with
    | some (keyword, operand) => do
      let operand ←
        if keyword = .quasiquote then template bound depth (level + 1) operand
        else if level = 1 then code bound depth operand
        else template bound depth (level - 1) operand
      Build.list [.name keyword.name, operand]
    | none =>
      match v with
      | .pair a => do
        let p := (← get).pairAt a
        let car ← template bound depth level p.car
        let cdr ← template bound depth level p.cdr
        Build.cons car cdr
      | .vector a => do
        let items ← ((← get).vectorAt a).toList.mapM (template bound depth level)
        Build.vector items.toArray
      | v => strip depth v

end

/-- Keeps stamps only on identifiers that the form binds. -/
def renameIntroduced (v : Value) : Action Value := do
  let s ← get
  if ← Action.ended (s.isStamped? v) then
    let bound ← Action.ended (binders s s.walkBound v)
    code bound s.walkBound v
  else return v

def stripStamps (v : Value) : Action Value := do
  strip (← get).walkBound v

end Renaming
end HygienicScheme
