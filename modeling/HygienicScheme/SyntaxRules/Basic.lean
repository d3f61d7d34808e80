import HygienicScheme.Value

/-!
Compiled `syntax-rules` transformers. A list or vector pattern is a sequence of patterns, one of
which may be repeated, ending plainly or in a pattern for the rest of the list. A template element
carries the number of ellipses behind it.
-/
namespace HygienicScheme

mutual

inductive Pattern
  | wildcard
  /-- Matches a symbol of this name at any stamp. -/
  | literal (s : Symbol)
  | variable (s : Symbol)
  /-- Matches what is structurally equal. -/
  | constant (v : Value)
  | list (items : PatternSeq)
  | vector (items : PatternSeq)

inductive PatternSeq
  | done
  /-- The pattern behind a dot. -/
  | rest (p : Pattern)
  | item (p : Pattern) (more : PatternSeq)
  /-- A pattern with an ellipsis; what follows it has a fixed length. -/
  | repeated (p : Pattern) (after : PatternSeq)

end

mutual

inductive Template
  | variable (s : Symbol)
  /-- An identifier that the template brings itself. -/
  | free (s : Symbol)
  | constant (v : Value)
  | list (items : TemplateSeq)
  | vector (items : TemplateSeq)

inductive TemplateSeq
  | done
  | tail (t : Template)
  | item (t : Template) (ellipses : Nat) (more : TemplateSeq)

end

instance : Inhabited Pattern := ⟨.wildcard⟩
instance : Inhabited Template := ⟨.constant .null⟩

namespace PatternSeq

def leading : PatternSeq → List Pattern
  | done | rest _ | repeated .. => []
  | item p more => p :: more.leading

def repeated? : PatternSeq → Option Pattern
  | done | rest _ => none
  | repeated p _ => some p
  | item _ more => more.repeated?

def trailing : PatternSeq → List Pattern
  | done | rest _ => []
  | repeated _ after => after.leading
  | item _ more => more.trailing

def rest? : PatternSeq → Option Pattern
  | done => none
  | rest p => some p
  | repeated _ after => after.rest?
  | item _ more => more.rest?

end PatternSeq

mutual

def Pattern.vars : Pattern → List Symbol
  | .variable s => [s]
  | .list items | .vector items => items.vars
  | .wildcard | .literal _ | .constant _ => []

def PatternSeq.vars : PatternSeq → List Symbol
  | .done => []
  | .rest p => p.vars
  | .item p more => p.vars ++ more.vars
  | .repeated p after => p.vars ++ after.vars

end

mutual

def Template.occurrences : Template → List Symbol
  | .variable s => [s]
  | .list items | .vector items => items.occurrences
  | .free _ | .constant _ => []

def TemplateSeq.occurrences : TemplateSeq → List Symbol
  | .done => []
  | .tail t => t.occurrences
  | .item t _ more => t.occurrences ++ more.occurrences

end

def distinct : List Symbol → List Symbol
  | [] => []
  | s :: more => s :: (distinct more).filter (· != s)

def Template.vars (t : Template) : List Symbol := distinct t.occurrences

def TemplateSeq.vars (items : TemplateSeq) : List Symbol := distinct items.occurrences

structure Rule where
  /-- Counted from one. -/
  number : Nat
  pattern : Pattern
  template : Template
  /-- The number of ellipses over each variable of the pattern. -/
  depths : List (Symbol × Nat)
deriving Inhabited

structure Transformer where
  name : String
  literals : List Symbol
  /-- Tried in order; the first that matches is used. -/
  rules : List Rule
deriving Inhabited

def Transformer.isLiteral (t : Transformer) (s : Symbol) : Bool :=
  t.literals.any (·.name == s.name)

end HygienicScheme
