import HygienicScheme.Datum
import HygienicScheme.Decimal.Literal
import HygienicScheme.Reader.Fault
import HygienicScheme.Text.Alphanumeric
import HygienicScheme.Text.Blank

/-!
The first step of reading a datum: either a constant or a symbol is read whole, or the opening of
a list, vector, abbreviation or datum comment is taken off. Every step takes at least one
character (`scan_progress`).
-/
namespace HygienicScheme.Reader

def isDelimiter (c : Char) : Bool := "()[]\";'`,".toList.contains c

def isAtomChar (c : Char) : Bool := !Text.isBlank c && !isDelimiter c

def isSymbolChar (c : Char) : Bool :=
  Text.isAlphanumeric c || "!$%&*/:<=>?^_~+-.@".toList.contains c

def isSymbolName : List Char → Bool
  | [] => false
  | ['.'] => false
  | c :: cs =>
    !c.isDigit
      && !((c == '-' || c == '+' || c == '.') && (cs.head?.map Char.isDigit).getD false)
      && (c :: cs).all isSymbolChar

def looksNumeric (token : List Char) : Bool :=
  let (_, unsigned) := Decimal.sign token
  let digits := match unsigned with
    | '.' :: cs => cs
    | cs => cs
  (digits.head?.map Char.isDigit).getD false

def numberOf (token : List Char) : Except FaultKind Datum :=
  if (Decimal.sign token).2.all Char.isDigit then
    match Decimal.integer? token with
    | some n => .ok (.int n)
    | none => .error .integerRange
  else
    match Decimal.Literal.ofChars? token with
    | some l => .ok (.float l.toFloat)
    | none => .error .badNumber

def atomOf (token : List Char) : Except FaultKind Datum :=
  if looksNumeric token then numberOf token
  else if isSymbolName token then .ok (.name (String.ofList token))
  else .error .badToken

def isHexDigit (c : Char) : Bool :=
  c.isDigit || ('a' ≤ c && c ≤ 'f') || ('A' ≤ c && c ≤ 'F')

def hashAtomOf (token : List Char) : Except FaultKind Datum :=
  match token with
  | ['t'] | ['t', 'r', 'u', 'e'] => .ok (.bool true)
  | ['f'] | ['f', 'a', 'l', 's', 'e'] => .ok (.bool false)
  | x :: hex =>
    if x == 'x' || x == 'X' then
      let (negative, digits) := Decimal.sign hex
      if digits.isEmpty || !digits.all isHexDigit then .error .badToken
      else match Decimal.whole? (Decimal.signed negative (Decimal.number 16 digits)) with
        | some n => .ok (.int n)
        | none => .error .integerRange
    else .error .badToken
  | [] => .error .badToken

def characterOf (first : Char) (more : List Char) : Except FaultKind Datum :=
  if more.isEmpty then .ok (.char first) else
    match String.ofList (first :: more) with
    | "space" => .ok (.char ' ')
    | "newline" | "linefeed" => .ok (.char '\n')
    | "tab" => .ok (.char '\t')
    | "return" => .ok (.char '\r')
    | "nul" | "null" => .ok (.char (Char.ofNat 0))
    | _ => .error .unexpectedCharacter

def stringBody : List Char → List Char → Except Fault (List Char × List Char)
  | text, '"' :: rest => .ok (text.reverse, rest)
  | text, '\\' :: cs =>
    match cs with
    | 'n' :: cs => stringBody ('\n' :: text) cs
    | 't' :: cs => stringBody ('\t' :: text) cs
    | 'r' :: cs => stringBody ('\r' :: text) cs
    | '\\' :: cs => stringBody ('\\' :: text) cs
    | '"' :: cs => stringBody ('"' :: text) cs
    | [] => .error ⟨.endOfInput, []⟩
    | _ => .error ⟨.badEscape, '\\' :: cs⟩
  | text, c :: cs => stringBody (c :: text) cs
  | _, [] => .error ⟨.endOfInput, []⟩

inductive Token
  | constant (d : Datum)
  | list (close : Char)
  | vector
  | abbreviation (keyword : String)
  | comment
deriving Inhabited

def atomAt (start : List Char) (result : Except FaultKind Datum) (rest : List Char) :
    Except Fault (Token × List Char) :=
  match result with
  | .ok d => .ok (.constant d, rest)
  | .error kind => .error ⟨kind, start⟩

def scan (cs : List Char) : Except Fault (Token × List Char) :=
  match cs with
  | [] => .error ⟨.endOfInput, []⟩
  | '(' :: rest => .ok (.list ')', rest)
  | '[' :: rest => .ok (.list ']', rest)
  | '\x27' :: rest => .ok (.abbreviation "quote", rest)
  | '\x60' :: rest => .ok (.abbreviation "quasiquote", rest)
  | ',' :: '@' :: rest => .ok (.abbreviation "unquote-splicing", rest)
  | ',' :: rest => .ok (.abbreviation "unquote", rest)
  | '"' :: rest => do
    let (text, rest) ← stringBody [] rest
    pure (.constant (.string (String.ofList text)), rest)
  | '#' :: ';' :: rest => .ok (.comment, rest)
  | '#' :: '(' :: rest => .ok (.vector, rest)
  | '#' :: '\\' :: first :: rest =>
    atomAt cs (characterOf first (rest.takeWhile isAtomChar)) (rest.dropWhile isAtomChar)
  | '#' :: rest => atomAt cs (hashAtomOf (rest.takeWhile isAtomChar)) (rest.dropWhile isAtomChar)
  | c :: _ =>
    if isAtomChar c then atomAt cs (atomOf (cs.takeWhile isAtomChar)) (cs.dropWhile isAtomChar)
    else .error ⟨.noDatum, cs⟩

end HygienicScheme.Reader
