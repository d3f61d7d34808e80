import HygienicScheme.Interpreter
import HygienicScheme.Text.Blank
import HygienicScheme.Text.TypedLine

/-!
The conversation with a user. Lines are collected until they can be read as whole forms; then they
are evaluated and the value is shown. A line that starts a form may also be a command. Backspaces
in a line are carried out before it is read.
-/
namespace HygienicScheme

structure Repl where
  interpreter : Interpreter
  /-- The lines of a form that is not complete yet. -/
  pending : String

namespace Repl

def banner : String :=
  "SchemeXP: Scheme with hygienic syntax-rules macros\n"
    ++ "Enter expressions like: (let loop ((i 0)) (if (< i 3) (loop (+ i 1)) i))\n"
    ++ "Type :help for more commands, or Ctrl+C to exit.\n\n"

def help : String :=
  "SchemeXP interpreter:\n"
    ++ "  :help      - Show this help message\n"
    ++ "  :env       - Show primitives, macros and your definitions\n"
    ++ "  :quit      - Exit the interpreter\n"
    ++ "  :exit      - Exit the interpreter\n"
    ++ "  Ctrl+C     - Discard a partial expression, or exit\n\n"
    ++ "Unfinished expressions continue on the next line.\n\n"
    ++ "Examples:\n"
    ++ "  (define (square x) (* x x))\n"
    ++ "  (map square '(1 2 3))\n"
    ++ "  (define-syntax swap!\n"
    ++ "    (syntax-rules () ((_ a b) (let ((tmp a)) (set! a b) (set! b tmp)))))\n"
    ++ "  (call/cc (lambda (k) (+ 1 (k 42))))\n\n"

def farewell : String := "Goodbye!\n"

def start : Repl := ⟨.new { redefine := true } "stdout", ""⟩

def columnWidth : Nat := 18

def cell (name : String) : String :=
  "  " ++ name ++ String.ofList (List.replicate (columnWidth - name.length) ' ')

def columns : List String → String
  | [] => "\n"
  | a :: b :: c :: d :: more => String.join (([a, b, c, d].map cell) ++ ["\n", columns more])
  | names => String.join (names.map cell) ++ "\n\n"

def listing (title : String) (names : List String) : String :=
  s!"{title} ({names.length}):\n" ++ columns names

def describe (s : Store) (env : Environment) : String :=
  let primitives := match env.parent? with
    | some root => listing "Primitives" ((s.bindings root).map (·.1.name))
    | none => ""
  let names := s.transformerNames env
  let transformers := if names.isEmpty then "" else listing "Macros" names
  let bound := s.bindings env
  let own :=
    if bound.isEmpty then "No user definitions.\n"
    else s!"User-defined values ({bound.length}):\n"
      ++ String.join (bound.map fun (x, v) => s!"  {x.name} = {s.writeText v}\n")
  primitives ++ transformers ++ own

/-- How a conversation is over: the process exits, or it is lost in an evaluation without an end. -/
inductive Ending
  | exited (code : UInt8)
  | lost

def Ending.code? : Ending → Option UInt8
  | exited code => some code
  | lost => none

def Ending.toNat : Ending → Nat
  | exited code => code.toNat
  | lost => 134

def ending? : Outcome → Option Ending
  | .error .conflict => some (.exited 1)
  | .error .endless | .unfinished => some .lost
  | _ => none

inductive Next
  | more (r : Repl)
  | done (ending : Ending)

def shown (s : Store) : Outcome → String
  | .value .unspecified => ""
  | .value v => s.writeText v ++ "\n"
  | .error e => s!"Error: {e.message}\n"
  | .unfinished => ""

def evaluate (i : Interpreter) (text : String) : String × Next :=
  match i.evalText text with
  | (.error (.parse e), i) =>
    if e.kind = .incomplete then ("", .more ⟨i, text⟩)
    else (s!"Error: {(Error.parse e).message}\n", .more ⟨i, ""⟩)
  | (outcome, i) =>
    let (written, i) := i.takeOutput
    match ending? outcome with
    | some ending => (written, .done ending)
    | none => (written ++ shown i.store outcome, .more ⟨i, ""⟩)

def reply (r : Repl) (line : String) : String × Next :=
  if r.pending.isEmpty then
    match String.ofList (Text.trim line.toList) with
    | "" => ("", .more r)
    | ":help" => (help, .more r)
    | ":env" => (describe r.interpreter.store r.interpreter.context.global, .more r)
    | ":quit" | ":exit" => (farewell, .done (.exited 0))
    | _ => evaluate r.interpreter (line ++ "\n")
  else evaluate r.interpreter (r.pending ++ line ++ "\n")

def feed (r : Repl) (line : String) : String × Next :=
  match Text.typedLine? line.toList with
  | some cs => r.reply (String.ofList cs)
  | none => ("", .done (.exited 1))

def chomp (cs : List Char) : List Char :=
  match cs.reverse with
  | '\n' :: '\r' :: rest => rest.reverse
  | '\n' :: rest => rest.reverse
  | _ => cs

def converse (printed : String) (r : Repl) : List String → String × Ending
  | [] => (printed ++ farewell, .exited 0)
  | line :: more =>
    match r.feed line with
    | (text, .more r) => converse (printed ++ text) r more
    | (text, .done ending) => (printed ++ text, ending)

def lines (start : List Char) : List Char → List String
  | [] => if start.isEmpty then [] else [String.ofList start.reverse]
  | '\n' :: cs => String.ofList (chomp (('\n' :: start).reverse)) :: lines [] cs
  | c :: cs => lines (c :: start) cs

def transcript (input : String) : String × Ending := converse banner start (lines [] input.toList)

end Repl
end HygienicScheme
