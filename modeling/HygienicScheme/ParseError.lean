/-!
Reports about text that cannot be read. A report may show the token it met and a window of the
text; the window starts twenty before the offset and is a hundred characters long.
-/
namespace HygienicScheme

inductive ParseErrorKind
  | invalidSyntax
  | incomplete
  | tooDeeplyNested
  | trailingContent
  | implementationLimit
deriving DecidableEq, Inhabited, Repr

structure ParseError where
  kind : ParseErrorKind
  message : String
  context : Option String
  found : Option String
deriving DecidableEq, Inhabited, Repr

namespace ParseError

def contextLength : Nat := 100
def contextLead : Nat := 20

def onOneLine (cs : List Char) : List Char :=
  cs.flatMap fun c => if c = '\n' then ['\\', 'n'] else if c = '\r' then [] else [c]

def window (input : List Char) (offset : Nat) : List Char :=
  (input.drop (offset - contextLead)).take contextLength

def contextText (input : List Char) (offset : Nat) : String :=
  let start := offset - contextLead
  let shown := window input offset
  let before := if 0 < start then "[...]" else ""
  let after := if start + shown.length < input.length then "[...]" else ""
  before ++ String.ofList (onOneLine shown) ++ after

def withContext (kind : ParseErrorKind) (message : String) (input : List Char) (offset : Nat)
    (found : Option String) : ParseError :=
  ⟨kind, message, some (contextText input offset), found⟩

def text (e : ParseError) : String :=
  let found := match e.found with
    | some found => s!"\nFound: {found}"
    | none => ""
  let context := match e.context with
    | some context => s!"\nContext: {context}"
    | none => ""
  e.message ++ found ++ context

end ParseError
end HygienicScheme
