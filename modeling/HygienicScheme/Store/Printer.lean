import HygienicScheme.Decimal.Text
import HygienicScheme.Store.Basic

/-!
The text of values. At most ten thousand nodes are printed, so that circular structure has a text
too; where the budget ends an ellipsis stands, and every bracket is still closed. There are three
modes: `write` quotes strings and characters, `display` does not, and `debug` is `write` with the
stamps of symbols.
-/
namespace HygienicScheme.Store

def printBudget : Nat := 10000

inductive PrintMode
  | write
  | display
  | debug
deriving DecidableEq, Inhabited, Repr

def charText (mode : PrintMode) (c : Char) : String :=
  if mode = .display then c.toString
  else if c = ' ' then "#\\space"
  else if c = '\n' then "#\\newline"
  else if c = '\t' then "#\\tab"
  else "#\\" ++ c.toString

def escape (c : Char) : List Char :=
  if c = '"' then ['\\', '"']
  else if c = '\\' then ['\\', '\\']
  else if c = '\n' then ['\\', 'n']
  else if c = '\t' then ['\\', 't']
  else if c = '\r' then ['\\', 'r']
  else [c]

def stringText (mode : PrintMode) (text : String) : String :=
  if mode = .display then text
  else "\"" ++ String.ofList (text.toList.flatMap escape) ++ "\""

def atomText (s : Store) (mode : PrintMode) : Value → String
  | .null => "()"
  | .unspecified => "#<unspecified>"
  | .bool b => if b then "#t" else "#f"
  | .int n => toString n.toInt
  | .float x => Decimal.written x
  | .char c => charText mode c
  | .string x => stringText mode x.text
  | .symbol x => if mode = .debug then x.debugText else x.name
  | .closure a =>
    match (s.closureAt a).name with
    | some name => s!"#<procedure {name}>"
    | none => "#<procedure>"
  | .primitive p => s!"#<native {p.name}>"
  | .escape _ => "#<native continuation>"
  | .promise _ => "#<promise>"
  | .outputPort name => s!"#<port {name}>"
  | .pair _ | .vector _ => ""

structure Printout where
  text : String
  budget : Nat
  vectors : List Address

namespace Printout

def add (p : Printout) (text : String) : Printout := { p with text := p.text ++ text }

def spend (p : Printout) : Printout := { p with budget := p.budget - 1 }

def enter (p : Printout) (a : Address) : Printout := { p with vectors := a :: p.vectors }

abbrev After (p : Printout) := { q : Printout // q.budget ≤ p.budget - 1 }

end Printout

mutual

def printNode (s : Store) (mode : PrintMode) (p : Printout) (v : Value) : p.After :=
  if h : p.budget = 0 then ⟨p.add "...", by simp [Printout.add, h]⟩ else
    match v with
    | .pair a =>
      let items := printTail s mode (p.spend.add "(") true (.pair a)
      ⟨items.1.add ")", by have := items.2; simp [Printout.spend, Printout.add] at *; omega⟩
    | .vector a =>
      let items := printItems s mode ((p.spend.add "#(").enter a) true (s.vectorAt a).toList
      ⟨items.1.add ")", by
        have := items.2
        simp [Printout.spend, Printout.add, Printout.enter] at *
        omega⟩
    | v => ⟨p.spend.add (s.atomText mode v), by simp [Printout.spend, Printout.add]⟩
termination_by (p.budget, 0, 0)
decreasing_by all_goals simp [Printout.spend, Printout.add, Printout.enter]; grind

def printTail (s : Store) (mode : PrintMode) (p : Printout) (first : Bool) (v : Value) :
    { q : Printout // q.budget ≤ p.budget } :=
  match v with
  | .pair a =>
    let p' := if first then p else p.add " "
    have hp : p'.budget = p.budget := by grind [Printout.add]
    if h : p'.budget = 0 then ⟨p'.add "...", by simp [Printout.add]; omega⟩ else
      let item := printNode s mode p' (s.pairAt a).car
      have hi := item.2
      let more := printTail s mode item.1 false (s.pairAt a).cdr
      ⟨more.1, by have := more.2; omega⟩
  | .null => ⟨p, Nat.le_refl _⟩
  | tail =>
    let last := printNode s mode (p.add " . ") tail
    ⟨last.1, by have := last.2; simp [Printout.add] at *; omega⟩
termination_by (p.budget, 1, 0)
decreasing_by all_goals simp_wf; grind [Printout.add]

def printItems (s : Store) (mode : PrintMode) (p : Printout) (first : Bool) (items : List Value) :
    { q : Printout // q.budget ≤ p.budget } :=
  match items with
  | [] => ⟨p, Nat.le_refl _⟩
  | item :: items =>
    let p' := if first then p else p.add " "
    have hp : p'.budget = p.budget := by grind [Printout.add]
    if h : p'.budget = 0 then ⟨p'.add "...", by simp [Printout.add]; omega⟩ else
      let item := printNode s mode p' item
      have hi := item.2
      let more := printItems s mode item.1 false items
      ⟨more.1, by have := more.2; omega⟩
termination_by (p.budget, 1, 0)
decreasing_by all_goals simp_wf; grind [Printout.add]

end

def print (s : Store) (mode : PrintMode) (v : Value) : Printout :=
  (s.printNode mode ⟨"", printBudget, []⟩ v).1

def writeText (s : Store) (v : Value) : String := (s.print .write v).text

def displayText (s : Store) (v : Value) : String := (s.print .display v).text

def debugText (s : Store) (v : Value) : String := (s.print .debug v).text

end HygienicScheme.Store
