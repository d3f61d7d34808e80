import HygienicScheme.Renaming
import HygienicScheme.SyntaxRules.Definition
import HygienicScheme.SyntaxRules.Transcription

/-!
Expansion of a form before it is evaluated. The walk goes from the outside in: a list whose head
names a transformer is transcribed and the result expanded again; of any other list the items are
expanded in order. Quoted data, parameter lists and the headers of definitions are left alone, and
a quasiquoted template is entered only where it is unquoted. `room` counts the levels that are left
before the limit; it shrinks with every level and every use, so expansion always ends.
-/
namespace HygienicScheme

namespace Expansion

def maxDepth : Nat := 256

def maxUses : Nat := 1 <<< 32 - 1

inductive Head
  | use (t : Transformer)
  | quote
  | quasiquote
  /-- A form whose first operand is not code. -/
  | binding
  | defineSyntax
  | letSyntax (keyword : String)
  | other

def coreHead (name : String) (count : Nat) : Head :=
  if name == "quote" then .quote
  else if name == "quasiquote" then .quasiquote
  else if name == "lambda" || name == "define" then if 2 ≤ count then .binding else .other
  else if name == "define-syntax" then .defineSyntax
  else if name == "let-syntax" || name == "letrec-syntax" then .letSyntax name
  else .other

def headOf (env : Environment) (items : List Value) (s : Store) : Head :=
  match items with
  | .symbol head :: _ =>
    match s.transformer? head.name env.chain with
    | some t => .use t
    | none => if head.isStamped then .other else coreHead head.name items.length
  | _ => .other

def firstMatch? (s : Store) (form : Value) : List Rule → Option (Rule × Bindings)
  | [] => none
  | r :: more =>
    match r.bindings s form with
    | .ok bs => some (r, bs)
    | .error _ => firstMatch? s form more

def nextUse : Action (Nat × Nat) :=
  modifyGet fun s => ((s.phase, s.uses), { s with uses := min (s.uses + 1) maxUses })

def defineSyntax (env : Environment) (operands : List Value) (tail : Value) : Action Unit := do
  match operands, tail with
  | [.symbol name, spec], .null =>
    if isCoreKeyword name.name then
      Action.malformed "define-syntax" (.coreKeyword name.name)
    else
      let t ← Action.inspect (SyntaxRules.define · name.name spec)
      let t ← t
      Action.change (·.install env t)
  | [name, _], .null =>
    Action.malformed "define-syntax" (.notIdentifier (← Action.writeText name))
  | _, _ => Action.malformed "define-syntax" .syntaxDefinition

def installAll (env : Environment) (keyword : String) : List Value → Action Unit
  | [] => pure ()
  | v :: more => do
    match ← Action.properList? v with
    | some parts =>
      defineSyntax env parts .null
      installAll env keyword more
    | none => Action.malformed keyword (.binding (← Action.writeText v))

def letSyntax (env : Environment) (keyword : String) (operands : List Value) (tail : Value) :
    Action Value := do
  match operands with
  | [] => Action.malformed keyword .missingBindings
  | bindings :: body =>
    if body.isEmpty || !tail.isNull then Action.malformed keyword .improperBody else
      match ← Action.properList? bindings with
      | none => Action.malformed keyword .improperBindings
      | some bindings =>
        installAll env keyword bindings
        let thunk ← Build.list (.name "lambda" :: .null :: body)
        Build.list [thunk]

def nextPhase : Action Unit :=
  Action.change fun s => { s with phase := s.phase + 1, uses := 0 }

section Observed

/-! The walk with an observer that is told the uses it transcribes. Expansion itself has none. -/

variable {m : Type → Type} [Monad m] [MonadLiftT Action m] (observe : MacroUse → m Unit)

def transcribeWith (env : Environment) (t : Transformer) (form : Value) : m Value := do
  match ← Action.inspect (firstMatch? · form t.rules) with
  | some (r, bs) =>
    let (phase, index) ← nextUse
    let u : MacroUse := ⟨t, env, phase, index⟩
    observe u
    u.transcribe r.template bs
  | none => (do throw (.noMatchingRule t.name (← Action.writeText form)) : Action Value)

mutual

def expandWith (env : Environment) (room : Nat) (form : Value) : m Value :=
  match form, room with
  | .pair _, 0 => (throw (.eval (.expansionLimit maxDepth)) : Action Value)
  | .pair _, room + 1 => do
    match ← Action.splitList? form with
    | none => return form
    | some (items, tail) =>
      match ← Action.inspect (headOf env items) with
      | .use t => do
        let expanded ← transcribeWith observe env t form
        expandWith env room expanded
      | .quote => return form
      | .quasiquote =>
        match items, tail with
        | [keyword, v], .null => do
          let fuel ← Action.inspect (·.walkBound)
          let v ← expandTemplateWith env room fuel 1 v
          (Build.list [keyword, v] : Action Value)
        | _, _ => return form
      | .binding => do
        let body ← (items.drop 2).mapM fun v => expandWith env room v
        (Build.listWithTail (items.take 2 ++ body) tail : Action Value)
      | .defineSyntax => do
        defineSyntax env (items.drop 1) tail
        return form
      | .letSyntax keyword => do
        let body ← letSyntax env keyword (items.drop 1) tail
        expandWith env room body
      | .other => do
        let items ← items.mapM fun v => expandWith env room v
        (Build.listWithTail items tail : Action Value)
  | form, _ => pure form
termination_by (room, 0)

def expandTemplateWith (env : Environment) (room fuel level : Nat) (v : Value) : m Value :=
  match fuel with
  | 0 => (throw .endless : Action Value)
  | fuel + 1 => do
    match ← Action.inspect (·.quasiForm? v) with
    | some (keyword, operand) =>
      let operand ←
        if keyword = .quasiquote then expandTemplateWith env (room - 1) fuel (level + 1) operand
        else if level = 1 then expandWith env (room - 1) operand
        else expandTemplateWith env (room - 1) fuel (level - 1) operand
      (Build.list [.name keyword.name, operand] : Action Value)
    | none =>
      match v with
      | .pair a =>
        let p ← Action.inspect (·.pairAt a)
        let car ← expandTemplateWith env (room - 1) fuel level p.car
        let cdr ← expandTemplateWith env room fuel level p.cdr
        (Build.cons car cdr : Action Value)
      | .vector a =>
        let items ← Action.inspect (·.vectorAt a)
        let items ← items.toList.mapM fun v => expandTemplateWith env (room - 1) fuel level v
        (Build.vector items.toArray : Action Value)
      | v => return v
termination_by (room, fuel + 1)
decreasing_by all_goals simp only [Prod.lex_def, true_and]; omega

end

def expandToplevelWith (env : Environment) (form : Value) : m Value := do
  nextPhase
  let expanded ← expandWith observe env (maxDepth + 1) form
  (Renaming.renameIntroduced expanded : Action Value)

end Observed

def unobserved (_ : MacroUse) : Action Unit := pure ()

def transcribe (env : Environment) (t : Transformer) (form : Value) : Action Value :=
  transcribeWith unobserved env t form

def expand (env : Environment) (room : Nat) (form : Value) : Action Value :=
  expandWith unobserved env room form

def expandTemplate (env : Environment) (room fuel level : Nat) (v : Value) : Action Value :=
  expandTemplateWith unobserved env room fuel level v

def expandToplevel (env : Environment) (form : Value) : Action Value :=
  expandToplevelWith unobserved env form

end Expansion
end HygienicScheme
