import HygienicScheme.Arity
import HygienicScheme.ParseError

/-!
The errors that end the evaluation of a form, by cause. `Error.message` is the text that a user is
shown.
-/
namespace HygienicScheme

inductive EvalFault
  | overflow (operation : String)
  /-- Division by zero in `/`, or in the integer division of this name. -/
  | divisionByZero (operation : Option String)
  | signalled (message : String)
  | depthLimit (limit : Nat)
  | expansionLimit (limit : Nat)
  | emptyApplication
  | improperArguments (operands : String)
  /-- An exit that was taken after the call that made it had returned. -/
  | deadExit (id : Nat)
deriving DecidableEq, Inhabited, Repr

inductive TypeFault
  | argument (procedure expected actual shown : String)
  | conversion (expected actual : String)
  | noExactInteger (shown : String)
  | improperSplice (shown : String)
deriving DecidableEq, Inhabited, Repr

inductive FormProblem
  | improperOperands
  | oneDatum
  | oneTemplate
  | outsideQuasiquote
  | outsideList
  | missingFormals
  | conditional
  | assignment
  | notIdentifier (shown : String)
  | unexpanded
  | missingName
  | definition
  | undefinable (shown : String)
  | keyword (name : String)
  | circularFormals
  | formal (shown : String)
  | restFormal (shown : String)
  | duplicateFormal (name : String)
  | emptyBody
  | syntaxDefinition
  | coreKeyword (name : String)
  | missingBindings
  | improperBody
  | improperBindings
  | binding (shown : String)
deriving DecidableEq, Inhabited, Repr

/-- What is wrong with a `syntax-rules` definition or with the use of one. -/
inductive ShapeProblem
  | improperTransformer
  | noRules
  | unsupported
  | improperLiterals
  | reservedLiteral (name : String)
  | literal (shown : String)
  | ruleShape (rule : Nat)
  | patternShape (rule : Nat)
  | circularPattern
  | circularTemplate
  | loosePatternEllipsis
  | looseTemplateEllipsis
  | secondEllipsis
  | ellipsisBeforeTail
  | duplicateVariable (name : String)
  | tooShallow (name : String) (pattern template : Nat)
  | missingEllipsis (name : String)
  | unbound (name : String)
  | nothingToRepeat
deriving DecidableEq, Inhabited, Repr

inductive RangeFault
  | negativeIndex (procedure : String) (index : Int64)
  | pastEnd (procedure : String) (index : Nat)
  | stringIndex (index : Nat)
  | vectorIndex (procedure : String) (index length : Nat)
  | substring (start stop length : Nat)
  | character (code : Int64)
deriving DecidableEq, Inhabited, Repr

inductive Error
  | parse (e : ParseError)
  | eval (fault : EvalFault)
  | type (fault : TypeFault)
  | unbound (name : String)
  | duplicate (name : String)
  | notApplicable (shown : String)
  | arity (procedure : Option String) (expected : Arity) (got : Nat)
  | malformed (keyword : String) (problem : FormProblem)
  | noMatchingRule (transformer form : String)
  | shape (transformer : String) (problem : ShapeProblem)
  /-- Two repetitions of different lengths under one ellipsis. -/
  | ambiguous (transformer first : String) (times : Nat) (second : String) (others : Nat)
  | range (fault : RangeFault)
  /-- A vector had to be shown while it was being written. No evaluation survives it. -/
  | conflict
  /-- A walk over circular data had no end. No evaluation survives it. -/
  | endless
deriving DecidableEq, Inhabited, Repr

def EvalFault.text : EvalFault → String
  | overflow operation => s!"Integer overflow in {operation}"
  | divisionByZero none => "Division by zero"
  | divisionByZero (some operation) => s!"{operation}: division by zero"
  | signalled message => message
  | depthLimit limit => s!"Evaluation depth limit exceeded (max: {limit})"
  | expansionLimit limit => s!"Macro expansion depth limit exceeded (max: {limit})"
  | emptyApplication => "Cannot evaluate empty list"
  | improperArguments operands => s!"Improper argument list in application: {operands}"
  | deadExit id => s!"continuation {id} invoked outside its extent"

def TypeFault.text : TypeFault → String
  | argument procedure expected actual shown =>
    s!"{procedure}: expected {expected}, got {actual} {shown}"
  | conversion expected actual => s!"expected {expected}, got {actual}"
  | noExactInteger shown => s!"inexact->exact: {shown} has no exact integer representation"
  | improperSplice shown => s!"unquote-splicing: {shown} is not a proper list"

def FormProblem.text : FormProblem → String
  | improperOperands => "arguments must form a proper list"
  | oneDatum => "expected exactly one datum"
  | oneTemplate => "expected exactly one template"
  | outsideQuasiquote => "not inside a quasiquote"
  | outsideList => "only valid inside a list template"
  | missingFormals => "missing parameter list"
  | conditional => "expected (if test consequent [alternative])"
  | assignment => "expected (set! name expr)"
  | notIdentifier shown => s!"{shown} is not an identifier"
  | unexpanded => "reached the evaluator without expansion"
  | missingName => "missing name"
  | definition => "expected (define name expr)"
  | undefinable shown => s!"cannot define {shown}"
  | keyword name => s!"cannot redefine syntactic keyword {name}"
  | circularFormals => "circular parameter list"
  | formal shown => s!"parameter {shown} is not an identifier"
  | restFormal shown => s!"rest parameter {shown} is not an identifier"
  | duplicateFormal name => s!"duplicate parameter {name}"
  | emptyBody => "empty body"
  | syntaxDefinition => "expected (define-syntax name (syntax-rules ...))"
  | coreKeyword name => s!"cannot redefine core keyword '{name}'"
  | missingBindings => "missing bindings"
  | improperBody => "body must be a non-empty proper list"
  | improperBindings => "bindings must be a list"
  | binding shown => s!"bad binding {shown}"

def ShapeProblem.text : ShapeProblem → String
  | improperTransformer => "transformer must be a proper list"
  | noRules => "syntax-rules must have at least one rule"
  | unsupported =>
    "only (syntax-rules (literal ...) (pattern template) ...) transformers are supported"
  | improperLiterals => "literals must be a list of identifiers"
  | reservedLiteral name => s!"'{name}' cannot appear in the literals list"
  | literal shown => s!"invalid literal {shown}: expected identifier"
  | ruleShape rule => s!"rule {rule} must be a list of pattern and template"
  | patternShape rule => s!"pattern of rule {rule} must be a list starting with the keyword"
  | circularPattern => "circular pattern"
  | circularTemplate => "circular template"
  | loosePatternEllipsis => "'...' must follow a sub-pattern"
  | looseTemplateEllipsis => "'...' must follow a template element"
  | secondEllipsis => "a list pattern may contain only one ellipsis"
  | ellipsisBeforeTail => "ellipsis and dotted tail cannot appear in the same list pattern"
  | duplicateVariable name => s!"pattern variable '{name}' appears more than once"
  | tooShallow name pattern template =>
    s!"pattern variable '{name}' is matched under {pattern} ellipses but used under {template}"
  | missingEllipsis name => s!"pattern variable '{name}' is used without enough ellipses"
  | unbound name => s!"pattern variable '{name}' is unbound"
  | nothingToRepeat => "template ellipsis has nothing to expand"

def RangeFault.text : RangeFault → String
  | negativeIndex procedure index => s!"{procedure}: negative index {index.toInt}"
  | pastEnd procedure index => s!"{procedure}: index {index} past end of list"
  | stringIndex index => s!"string-ref: index {index} out of range"
  | vectorIndex procedure index length =>
    s!"{procedure}: index {index} out of range for vector of length {length}"
  | substring start stop length =>
    s!"substring: range {start}..{stop} invalid for string of length {length}"
  | character code => s!"integer->char: {code.toInt} is not a valid character"

def Error.message : Error → String
  | parse e => s!"ParseError: {e.text}"
  | eval fault => s!"EvaluationError: {fault.text}"
  | type fault => s!"Type error: {fault.text}"
  | unbound name => s!"Unbound variable: {name}"
  | duplicate name => s!"Duplicate definition: {name} is already defined in this scope"
  | notApplicable shown => s!"Not applicable: {shown}"
  | arity (some procedure) expected got =>
    s!"ArityError: {procedure}: expected {expected.text} arguments, got {got}"
  | arity none expected got =>
    s!"ArityError: procedure expected {expected.text} arguments but got {got}"
  | malformed keyword problem => s!"Malformed {keyword}: {problem.text}"
  | noMatchingRule transformer form => s!"No matching syntax rule for {transformer} in {form}"
  | shape transformer problem => s!"Macro error: {transformer}: {problem.text}"
  | ambiguous transformer first times second others =>
    s!"Ambiguous expansion: {transformer}: '{first}' matched {times} times "
      ++ s!"but '{second}' matched {others} times"
  | range fault => s!"Out of range: {fault.text}"
  | conflict => "A vector was read while it was being written"
  | endless => "A walk over circular data has no end"

namespace Error

def overflow (operation : String) : Error := eval (.overflow operation)

def isFatal : Error → Bool
  | conflict | endless => true
  | _ => false

end Error
end HygienicScheme
