import HygienicScheme.Action

/-!
Environments as chains of frames. A stamped identifier means the nearest binding of exactly that
identifier, and the binding of its bare name only when no frame of the chain has one. Transformers
are kept by name in the root frame, so there is one namespace of them for the whole chain.
-/
namespace HygienicScheme

def coreKeywords : List String :=
  ["quote", "quasiquote", "unquote", "unquote-splicing", "lambda", "if", "define", "set!", "begin",
   "and", "or", "define-syntax", "let-syntax", "letrec-syntax"]

def isCoreKeyword (name : String) : Bool := coreKeywords.contains name

def insertEntry {α β : Type} [BEq α] (key : α) (value : β) : List (α × β) → List (α × β)
  | [] => [(key, value)]
  | entry :: more =>
    if entry.1 == key then (key, value) :: more else entry :: insertEntry key value more

def addBinding (bindings : List (Symbol × Value)) (x : Symbol) (v : Value) :
    Except Error (List (Symbol × Value)) :=
  if bindings.any (·.1 == x) then .error (.duplicate x.name) else .ok (bindings ++ [(x, v)])

namespace Environment

def chain (e : Environment) : List Address := e.frame :: e.outer

def parent? (e : Environment) : Option Environment :=
  match e.outer with
  | [] => none
  | frame :: outer => some ⟨frame, outer⟩

def root (e : Environment) : Environment := ⟨e.chain.getLast (by simp [chain]), []⟩

end Environment

namespace Store

def frameOf? (s : Store) (x : Symbol) : List Address → Option Address
  | [] => none
  | f :: outer =>
    if (s.frameAt f).bindings.any (·.1 == x) then some f else s.frameOf? x outer

def resolve? (s : Store) (e : Environment) (x : Symbol) : Option (Address × Symbol) :=
  match s.frameOf? x e.chain with
  | some f => some (f, x)
  | none =>
    if x.isStamped then (s.frameOf? x.unstamped e.chain).map (·, x.unstamped) else none

def lookupExact? (s : Store) (x : Symbol) : List Address → Option Value
  | [] => none
  | f :: outer =>
    match (s.frameAt f).bindings.lookup x with
    | some v => some v
    | none => s.lookupExact? x outer

def lookup? (s : Store) (e : Environment) (x : Symbol) : Option Value :=
  match s.lookupExact? x e.chain with
  | some v => some v
  | none => if x.isStamped then s.lookupExact? x.unstamped e.chain else none

def binds (s : Store) (e : Environment) (x : Symbol) : Bool :=
  (s.frameAt e.frame).bindings.any (·.1 == x)

def modifyFrame (s : Store) (f : Address) (change : Frame → Frame) : Store :=
  { s with frames := s.frames.modify f change }

def bind (s : Store) (f : Address) (x : Symbol) (v : Value) : Store :=
  s.modifyFrame f fun frame => { frame with bindings := insertEntry x v frame.bindings }

def transformer? (s : Store) (name : String) : List Address → Option Transformer
  | [] => none
  | f :: outer =>
    match (s.frameAt f).transformers.lookup name with
    | some t => some t
    | none => s.transformer? name outer

def isKeyword (s : Store) (e : Environment) (x : Symbol) : Bool :=
  isCoreKeyword x.name || (s.transformer? x.name e.chain).isSome

def install (s : Store) (e : Environment) (t : Transformer) : Store :=
  s.modifyFrame e.root.frame fun frame =>
    { frame with transformers := (t.name, t) :: frame.transformers }

def bindings (s : Store) (e : Environment) : List (Symbol × Value) :=
  (s.frameAt e.frame).bindings.mergeSort fun a b => a.1.le b.1

def transformerNames (s : Store) (e : Environment) : List String :=
  ((s.frameAt e.root.frame).transformers.map (·.1)).eraseDups.mergeSort fun a b => decide (a ≤ b)

end Store

namespace Build

def rootEnvironment (bindings : List (Symbol × Value)) : Build Environment :=
  modifyGet fun s => (⟨s.frames.size, []⟩, { s with frames := s.frames.push ⟨bindings, []⟩ })

def child (e : Environment) (bindings : List (Symbol × Value)) : Build Environment :=
  modifyGet fun s => (⟨s.frames.size, e.chain⟩, { s with frames := s.frames.push ⟨bindings, []⟩ })

end Build

namespace Action

def lookup (e : Environment) (x : Symbol) : Action Value := do
  match ← inspect (·.lookup? e x) with
  | some v => pure v
  | none => throw (.unbound x.name)

def define (e : Environment) (x : Symbol) (v : Value) : Action Unit := do
  if ← inspect (·.binds e x) then throw (.duplicate x.name)
  else change (·.bind e.frame x v)

def defineOrReplace (e : Environment) (x : Symbol) (v : Value) : Action Unit :=
  change (·.bind e.frame x v)

def assign (e : Environment) (x : Symbol) (v : Value) : Action Unit := do
  match ← inspect (·.resolve? e x) with
  | some (f, key) => change (·.bind f key v)
  | none => throw (.unbound x.name)

end Action
end HygienicScheme
