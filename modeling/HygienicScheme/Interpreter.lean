import HygienicScheme.Machine.Run
import HygienicScheme.Prelude
import HygienicScheme.Reader.Source

/-!
A session: a store with a root environment that holds the primitives and the transformers, and a
user environment below it that receives the definitions. Each form is expanded and evaluated before
the next; an error ends a text but undoes nothing.
-/
namespace HygienicScheme

structure Config where
  maxDepth : Nat := 10000
  /-- Whether a definition at the top level may replace another. -/
  redefine : Bool := false
  prelude : Bool := true
deriving Inhabited

structure Interpreter where
  context : Context
  store : Store
deriving Inhabited

def Context.evaluate (c : Context) (form : Value) (s : Store) : Outcome × Store :=
  (Machine.start form c.global s).run c Machine.allowance

def Context.expandAndEvaluate (c : Context) (form : Value) (s : Store) : Outcome × Store :=
  match Expansion.expandToplevel c.global form s with
  | .ok form s => c.evaluate form s
  | .error e s => (.error e, s)

def Context.evaluateAll (c : Context) (last : Outcome) : List Datum → Store → Outcome × Store
  | [], s => (last, s)
  | d :: more, s =>
    let (form, s) := d.place s
    match c.expandAndEvaluate form s with
    | (.value v, s) => c.evaluateAll (.value v) more s
    | failure => failure

theorem Context.evaluateAll_cons (c : Context) (last : Outcome) (d : Datum) (more : List Datum)
    (s : Store) : c.evaluateAll last (d :: more) s =
      match c.expandAndEvaluate (d.place s).1 (d.place s).2 with
      | (.value v, s) => c.evaluateAll (.value v) more s
      | failure => failure := rfl

def primitiveBindings : List (Symbol × Value) :=
  Primitive.all.map fun p => (.user p.name, .primitive p)

namespace Interpreter

/-- Reads and evaluates a text. Nothing is evaluated unless all of it can be read. -/
def evalText (i : Interpreter) (text : String) : Outcome × Interpreter :=
  match Reader.parseProgram text with
  | .error e => (.error (.parse e), i)
  | .ok forms =>
    match i with
    | ⟨c, s⟩ =>
      let (outcome, s) := c.evaluateAll (.value .unspecified) forms s
      (outcome, ⟨c, s⟩)

def evalForm (i : Interpreter) (form : Value) : Outcome × Interpreter :=
  match i with
  | ⟨c, s⟩ =>
    let (outcome, s) := c.expandAndEvaluate form s
    (outcome, ⟨c, s⟩)

def evalRaw (i : Interpreter) (form : Value) : Outcome × Interpreter :=
  match i with
  | ⟨c, s⟩ =>
    let (outcome, s) := c.evaluate form s
    (outcome, ⟨c, s⟩)

def perform {α : Type} (i : Interpreter) (action : Action α) : Except Error α × Interpreter :=
  match i with
  | ⟨c, s⟩ =>
    match action s with
    | .ok a s => (.ok a, ⟨c, s⟩)
    | .error e s => (.error e, ⟨c, s⟩)

def expand (i : Interpreter) (form : Value) : Except Error Value × Interpreter :=
  i.perform (Expansion.expandToplevel i.context.global form)

def define (i : Interpreter) (name : String) (v : Value) : Except Error Unit × Interpreter :=
  i.perform (Action.define i.context.global (.user name) v)

def place (i : Interpreter) (d : Datum) : Value × Interpreter :=
  match i with
  | ⟨c, s⟩ =>
    let (v, s) := d.place s
    (v, ⟨c, s⟩)

def takeOutput (i : Interpreter) : String × Interpreter :=
  match i with
  | ⟨c, s⟩ => (s.output, ⟨c, { s with output := "" }⟩)

def bare (config : Config) (outputName : String) : Interpreter :=
  let (root, s) := Build.rootEnvironment primitiveBindings Store.empty
  let (global, s) := Build.child root [] s
  ⟨⟨config.maxDepth, config.redefine, global, outputName⟩, s⟩

def new (config : Config) (outputName : String) : Interpreter :=
  let i := bare config outputName
  if config.prelude then (i.evalText prelude).2 else i

end Interpreter
end HygienicScheme
