import HygienicScheme.ParseError

/-!
Why reading stopped, and at which rest of the input. Most faults end the reading at once; only
`noDatum`, met where a datum is needed and none begins, is reported by the list, quotation or
vector around it.
-/
namespace HygienicScheme.Reader

def maxDepth : Nat := 64

inductive FaultKind
  | noDatum
  | badToken
  | unexpectedCharacter
  | badNumber
  | badEscape
  | integerRange
  | tooDeep
  | endOfInput
deriving DecidableEq, Inhabited, Repr

structure Fault where
  kind : FaultKind
  rest : List Char
deriving DecidableEq, Inhabited, Repr

def byteLength (cs : List Char) : Nat := cs.foldl (fun n c => n + c.utf8Size) 0

namespace Fault

def offset (f : Fault) (input : List Char) : Nat := byteLength input - byteLength f.rest

def found (isBlank : Char → Bool) (f : Fault) : Option String :=
  match (f.rest.takeWhile fun c => !isBlank c).take 10 with
  | [] => none
  | cs => some (String.ofList cs)

def report (f : Fault) (position : Nat) : ParseErrorKind × String :=
  match f.kind with
  | .tooDeep => (.tooDeeplyNested, s!"Expression too deeply nested (max depth: {maxDepth})")
  | .integerRange =>
    (.implementationLimit, s!"Integer literal out of range at position {position}")
  | .endOfInput => (.incomplete, "Unexpected end of input")
  | kind =>
    if f.rest.isEmpty then (.incomplete, "Unexpected end of input") else
      match kind with
      | .unexpectedCharacter => (.invalidSyntax, s!"Unexpected character at position {position}")
      | .badNumber => (.invalidSyntax, s!"Invalid number at position {position}")
      | .badEscape => (.invalidSyntax, s!"Invalid escape sequence at position {position}")
      | _ => (.invalidSyntax, s!"Invalid syntax at position {position}")

end Fault
end HygienicScheme.Reader
