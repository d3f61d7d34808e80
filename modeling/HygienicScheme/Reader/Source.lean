import HygienicScheme.Reader.Grammar

/-!
Reading whole texts. `parseDatum` takes a text of exactly one datum, `parseProgram` one of any
number of them; both report faults with their position and surroundings.
-/
namespace HygienicScheme.Reader

def Fault.toError (f : Fault) (input : List Char) : ParseError :=
  let position := f.offset input
  let (kind, message) := f.report position
  .withContext kind message input position (f.found Text.isBlank)

def emptyInput : ParseError := ⟨.incomplete, "Empty input", none, none⟩

def trailing (input rest : List Char) : ParseError :=
  let position := byteLength input - byteLength rest
  .withContext .trailingContent s!"Unexpected remaining input at position {position}" input
    position (some (String.ofList (rest.take 10)))

def parseDatum (text : String) : Except ParseError Datum :=
  let input := text.toList
  match skipAtmosphere input with
  | [] => .error emptyInput
  | start =>
    match readDatum 0 start with
    | .error f => .error (f.toError input)
    | .ok (d, rest) =>
      match skipAtmosphere rest with
      | [] => .ok d
      | rest => .error (trailing input rest)

def readAll (cs : List Char) : Except Fault (List Datum) :=
  have hs := skipAtmosphere_length cs
  match h : skipAtmosphere cs with
  | [] => .ok []
  | c :: start =>
    match readDatum 0 (c :: start) with
    | .error f => .error f
    | .ok (d, ⟨rest, hd⟩) =>
      have : rest.length < cs.length := Nat.lt_of_lt_of_le hd (h ▸ hs)
      match readAll rest with
      | .error f => .error f
      | .ok ds => .ok (d :: ds)
termination_by cs.length

def parseProgram (text : String) : Except ParseError (List Datum) :=
  match readAll text.toList with
  | .error f => .error (f.toError text.toList)
  | .ok ds => .ok ds

end HygienicScheme.Reader
