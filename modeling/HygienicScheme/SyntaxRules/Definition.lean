import HygienicScheme.Environment

/-!
Compiling `syntax-rules` definitions. All that can be checked without a use is checked here: the
literals are identifiers, a pattern binds no variable twice and repeats at most one item of a list
and none before a dotted tail, and a template uses each variable under at least as many ellipses as
the pattern has over it.
-/
namespace HygienicScheme.SyntaxRules

def ellipsis : String := "..."
def underscore : String := "_"

def isEllipsis (v : Value) : Bool := v.isNamed ellipsis

structure Scope where
  store : Store
  name : String
  literals : List Symbol

abbrev Depths := List (Symbol × Nat)

def Scope.fail {α : Type} (c : Scope) (problem : ShapeProblem) : Except Error α :=
  .error (.shape c.name problem)

def Scope.isLiteral (c : Scope) (s : Symbol) : Bool :=
  c.literals.any (·.name == s.name) || s.name == c.name || isCoreKeyword s.name

def patternItems (c : Scope) (item : Nat → Value → Depths → Except Error (Pattern × Depths))
    (depth : Nat) (tail : Value) :
    Bool → List Value → Depths → Except Error (PatternSeq × Depths)
  | repeats, [], seen =>
    if tail.isNull then .ok (.done, seen)
    else if repeats then c.fail .ellipsisBeforeTail
    else do
      let (p, seen) ← item depth tail seen
      return (.rest p, seen)
  | repeats, [v], seen =>
    if isEllipsis v then c.fail .loosePatternEllipsis else do
      let (p, seen) ← item depth v seen
      let (more, seen) ← patternItems c item depth tail repeats [] seen
      return (.item p more, seen)
  | repeats, v :: next :: more, seen =>
    if isEllipsis v then c.fail .loosePatternEllipsis
    else if isEllipsis next then
      if repeats then c.fail .secondEllipsis else do
        let (p, seen) ← item (depth + 1) v seen
        let (after, seen) ← patternItems c item depth tail true more seen
        return (.repeated p after, seen)
    else do
      let (p, seen) ← item depth v seen
      let (more, seen) ← patternItems c item depth tail repeats (next :: more) seen
      return (.item p more, seen)

def pattern (c : Scope) : Nat → Nat → Value → Depths → Except Error (Pattern × Depths)
  | 0, _, _, _ => .error .endless
  | fuel + 1, depth, v, seen =>
    match v with
    | .symbol s =>
      if s.name == ellipsis then c.fail .loosePatternEllipsis
      else if s.name == underscore then .ok (.wildcard, seen)
      else if c.isLiteral s then .ok (.literal s, seen)
      else if seen.any (·.1 == s) then c.fail (.duplicateVariable s.name)
      else .ok (.variable s, seen ++ [(s, depth)])
    | .pair _ =>
      match c.store.splitList? v with
      | none => c.fail .circularPattern
      | some (items, tail) => do
        let (items, seen) ← patternItems c (pattern c fuel) depth tail false items seen
        return (.list items, seen)
    | .null => .ok (.list .done, seen)
    | .vector a => do
      let items := (c.store.vectorAt a).toList
      let (items, seen) ← patternItems c (pattern c fuel) depth .null false items seen
      return (.vector items, seen)
    | v => .ok (.constant v, seen)

def rulePattern (c : Scope) (number : Nat) (v : Value) : Except Error (Pattern × Depths) :=
  match v, c.store.splitList? v with
  | .pair _, some (_ :: items, tail) => do
    let (items, seen) ← patternItems c (pattern c c.store.walkBound) 0 tail false items []
    return (.list (.item .wildcard items), seen)
  | _, _ => c.fail (.patternShape number)

def ellipsesOf (items : List Value) : Nat := (items.takeWhile isEllipsis).length

def templateItems (c : Scope) (item : Nat → Value → Except Error Template) (depth : Nat)
    (escaped : Bool) (tail : Value) (items : List Value) : Except Error TemplateSeq :=
  match items with
  | [] =>
    if tail.isNull then .ok .done else do
      let t ← item depth tail
      return .tail t
  | v :: more =>
    if !escaped && isEllipsis v then c.fail .looseTemplateEllipsis else do
      let ellipses := if escaped then 0 else ellipsesOf more
      let t ← item (depth + ellipses) v
      let more ← templateItems c item depth escaped tail (more.drop ellipses)
      return .item t ellipses more
termination_by items.length
decreasing_by rw [List.length_drop, List.length_cons]; omega

def escapedTemplate? (escaped : Bool) (items : List Value) (tail : Value) : Option Value :=
  match items with
  | [head, inner] => if !escaped && tail.isNull && isEllipsis head then some inner else none
  | _ => none

def template (c : Scope) (depths : Depths) : Nat → Bool → Nat → Value → Except Error Template
  | 0, _, _, _ => .error .endless
  | fuel + 1, escaped, depth, v =>
    match v with
    | .symbol s =>
      if s.name == ellipsis && !escaped then c.fail .looseTemplateEllipsis else
        match depths.lookup s with
        | some needed =>
          if depth < needed then c.fail (.tooShallow s.name needed depth) else .ok (.variable s)
        | none => .ok (.free s)
    | .pair _ =>
      match c.store.splitList? v with
      | none => c.fail .circularTemplate
      | some (items, tail) =>
        match escapedTemplate? escaped items tail with
        | some inner => template c depths fuel true depth inner
        | none => do
          let items ← templateItems c (template c depths fuel escaped) depth escaped tail items
          return .list items
    | .vector a => do
      let items := (c.store.vectorAt a).toList
      let items ← templateItems c (template c depths fuel escaped) depth escaped .null items
      return .vector items
    | v => .ok (.constant v)

def rule (c : Scope) (number : Nat) (v : Value) : Except Error Rule :=
  match c.store.properList? v with
  | some [p, t] => do
    let (p, depths) ← rulePattern c number p
    let t ← template c depths c.store.walkBound false 0 t
    return ⟨number, p, t, depths⟩
  | _ => c.fail (.ruleShape number)

def rules (c : Scope) : Nat → List Value → Except Error (List Rule)
  | _, [] => .ok []
  | number, v :: more => do
    let r ← rule c number v
    let more ← rules c (number + 1) more
    return r :: more

def literal (c : Scope) (v : Value) : Except Error Symbol :=
  match v with
  | .symbol s =>
    if s.name == ellipsis || s.name == underscore then c.fail (.reservedLiteral s.name) else .ok s
  | v => c.fail (.literal (c.store.writeText v))

def literals (c : Scope) (v : Value) : Except Error (List Symbol) :=
  match c.store.properList? v with
  | some items => items.mapM (literal c)
  | none => c.fail .improperLiterals

/-- Compiles `(syntax-rules (literal ...) (pattern template) ...)` under a name. -/
def define (store : Store) (name : String) (spec : Value) : Except Error Transformer :=
  let c : Scope := ⟨store, name, []⟩
  match store.properList? spec with
  | none => c.fail .improperTransformer
  | some (head :: names :: clauses) =>
    if head.isNamed "syntax-rules" then do
      let names ← literals c names
      if clauses.isEmpty then c.fail .noRules else
        let rules ← rules { c with literals := names } 1 clauses
        return ⟨name, names, rules⟩
    else c.fail .unsupported
  | some _ => c.fail .unsupported

end HygienicScheme.SyntaxRules
