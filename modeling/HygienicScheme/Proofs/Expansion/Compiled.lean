import HygienicScheme.Proofs.SyntaxRules.Reading

/-!
# What compiled transformers are made of

The constants of compiled patterns and templates have no parts and are no identifiers, and every
literal of a pattern is a listed literal, the transformer's own name or the name of a special form.
-/
namespace HygienicScheme

mutual

def Pattern.Fits (names : String → Prop) : Pattern → Prop
  | .wildcard => True
  | .variable _ => True
  | .literal x => names x.name
  | .constant v => v.isConstant
  | .list items => items.Fits names
  | .vector items => items.Fits names

def PatternSeq.Fits (names : String → Prop) : PatternSeq → Prop
  | .done => True
  | .rest p => p.Fits names
  | .item p more => p.Fits names ∧ more.Fits names
  | .repeated p after => p.Fits names ∧ after.Fits names

end

mutual

def Template.Atomic : Template → Prop
  | .variable _ => True
  | .free _ => True
  | .constant v => v.isConstant
  | .list items => items.Atomic
  | .vector items => items.Atomic

def TemplateSeq.Atomic : TemplateSeq → Prop
  | .done => True
  | .tail t => t.Atomic
  | .item t _ more => t.Atomic ∧ more.Atomic

end

def Transformer.Atomic (t : Transformer) : Prop := ∀ r ∈ t.rules, r.template.Atomic

structure Transformer.Fits (names : String → Prop) (t : Transformer) : Prop where
  literals : ∀ x ∈ t.literals, names x.name
  patterns : ∀ r ∈ t.rules, r.pattern.Fits names
  templates : t.Atomic

namespace SyntaxRules

variable {c : Scope}

def Scope.Literal (c : Scope) (name : String) : Prop :=
  (∃ x ∈ c.literals, x.name = name) ∨ name = c.name ∨ isCoreKeyword name

theorem Scope.literal_of_isLiteral {x : Symbol} (h : c.isLiteral x) : c.Literal x.name := by
  simpa [isLiteral, Literal, or_assoc] using h

mutual

theorem PatternOf.fits {n : Nat} {v : Value} {seen seen' : Depths} {p : Pattern} :
    PatternOf c n v seen p seen' → p.Fits c.Literal
  | .wildcard _ | .binder _ | .null => trivial
  | .literal hx => Scope.literal_of_isLiteral hx
  | .list _ h | .vector h => h.fits
  | .constant hv _ => hv

theorem PatternItemsOf.fits {n : Nat} {tail : Value} {repeats : Bool} {items : List Value}
    {seen seen' : Depths} {ps : PatternSeq} :
    PatternItemsOf c n tail repeats items seen ps seen' → ps.Fits c.Literal
  | .done => trivial
  | .rest _ h => h.fits
  | .item _ _ h hmore | .repeated _ _ h hmore => ⟨h.fits, hmore.fits⟩

end

variable {depths : Depths}

mutual

theorem TemplateOf.atomic {escaped : Bool} {n : Nat} {v : Value} {t : Template} :
    TemplateOf c depths escaped n v t → t.Atomic
  | .use _ _ | .free _ => trivial
  | .escape _ _ h => h.atomic
  | .list _ h | .vector h => h.atomic
  | .constant hv => hv

theorem TemplateItemsOf.atomic {escaped : Bool} {n : Nat} {tail : Value} {items : List Value}
    {ts : TemplateSeq} : TemplateItemsOf c depths escaped n tail items ts → ts.Atomic
  | .done => trivial
  | .tail _ h => h.atomic
  | .item _ _ h hmore => ⟨h.atomic, hmore.atomic⟩

end

theorem fits_rule {number : Nat} {v : Value} {r : Rule} (h : rule c number v = .ok r) :
    r.pattern.Fits c.Literal ∧ r.template.Atomic := by
  obtain ⟨p, t, -, hpattern, htemplate⟩ := ruleOf h
  obtain ⟨a, head, items, tail, ps, -, -, hp, hitems⟩ := rulePatternOf hpattern
  change r.pattern = _ at hp
  rw [hp]
  exact ⟨⟨trivial, hitems.fits⟩, htemplate.atomic⟩

/-- A compiled transformer has the name it was defined under, and its literals cover those of its
patterns. -/
theorem define_ok {store : Store} {name : String} {spec : Value} {t : Transformer}
    (h : define store name spec = .ok t) :
    t.name = name ∧ t.Fits fun k =>
      (∃ x ∈ t.literals, x.name = k) ∨ k = t.name ∨ isCoreKeyword k := by
  obtain ⟨rfl, clauses, -, hrules⟩ := define_parts h
  have hfits : ∀ r ∈ t.rules,
      r.pattern.Fits (Scope.Literal ⟨store, t.name, t.literals⟩) ∧ r.template.Atomic := by
    intro r hr
    obtain ⟨number, v, -, hrule⟩ := hrules r hr
    exact fits_rule hrule
  exact ⟨rfl, fun x hx => .inl ⟨x, hx, rfl⟩, fun r hr => (hfits r hr).1, fun r hr => (hfits r hr).2⟩

end SyntaxRules

mutual

theorem Pattern.Fits.mono {names names' : String → Prop} (hn : ∀ k, names k → names' k)
    {p : Pattern} (h : p.Fits names) : p.Fits names' :=
  match p with
  | .wildcard | .variable _ => trivial
  | .literal x => hn x.name h
  | .constant _ => h
  | .list _ | .vector _ => PatternSeq.Fits.mono hn h

theorem PatternSeq.Fits.mono {names names' : String → Prop} (hn : ∀ k, names k → names' k)
    {ps : PatternSeq} (h : ps.Fits names) : ps.Fits names' :=
  match ps with
  | .done => trivial
  | .rest _ => Pattern.Fits.mono hn h
  | .item _ _ | .repeated _ _ => ⟨Pattern.Fits.mono hn h.1, PatternSeq.Fits.mono hn h.2⟩

end

theorem Transformer.Fits.mono {names names' : String → Prop} {t : Transformer}
    (h : t.Fits names) (hn : ∀ k, names k → names' k) : t.Fits names' where
  literals x hx := hn x.name (h.literals x hx)
  patterns r hr := (h.patterns r hr).mono hn
  templates := h.templates

end HygienicScheme
