import HygienicScheme.Prelude
import HygienicScheme.Proofs.Derived.Transformers
import HygienicScheme.Reader.Source

/-!
# The derived forms as they are written

The transformers of `let`, `letrec`, `cond`, `case` and `do` are what their definitions in the
prelude are compiled to. The text is read and compiled by computation; since numbers of the language
have no decidable equality, the outcome is compared by a test that knows the constants of these
templates.
-/
namespace HygienicScheme

namespace Derived

section Comparing

def sameConstant : Value → Value → Bool
  | .null, .null => true
  | .bool b, .bool c => b == c
  | .string x, .string y => x == y
  | _, _ => false

mutual

def samePattern : Pattern → Pattern → Bool
  | .wildcard, .wildcard => true
  | .literal x, .literal y | .variable x, .variable y => x == y
  | .constant v, .constant w => sameConstant v w
  | .list ps, .list qs | .vector ps, .vector qs => samePatterns ps qs
  | _, _ => false

def samePatterns : PatternSeq → PatternSeq → Bool
  | .done, .done => true
  | .rest p, .rest q => samePattern p q
  | .item p ps, .item q qs | .repeated p ps, .repeated q qs => samePattern p q && samePatterns ps qs
  | _, _ => false

end

mutual

def sameTemplate : Template → Template → Bool
  | .variable x, .variable y | .free x, .free y => x == y
  | .constant v, .constant w => sameConstant v w
  | .list ts, .list us | .vector ts, .vector us => sameTemplates ts us
  | _, _ => false

def sameTemplates : TemplateSeq → TemplateSeq → Bool
  | .done, .done => true
  | .tail t, .tail u => sameTemplate t u
  | .item t n ts, .item u k us => sameTemplate t u && n == k && sameTemplates ts us
  | _, _ => false

end

def sameRule (r q : Rule) : Bool :=
  r.number == q.number && samePattern r.pattern q.pattern && sameTemplate r.template q.template
    && r.depths == q.depths

def sameRules : List Rule → List Rule → Bool
  | [], [] => true
  | r :: rs, q :: qs => sameRule r q && sameRules rs qs
  | _, _ => false

def sameTransformer (t m : Transformer) : Bool :=
  t.name == m.name && t.literals == m.literals && sameRules t.rules m.rules

theorem eq_of_sameConstant {v w : Value} (h : sameConstant v w) : v = w := by
  cases v <;> cases w <;> simp_all [sameConstant]

mutual

theorem eq_of_samePattern {p q : Pattern} (h : samePattern p q) : p = q := by
  cases p <;> cases q <;> simp only [samePattern, beq_iff_eq, Bool.false_eq_true] at h
  case wildcard => rfl
  case literal | «variable» => rw [h]
  case constant => rw [eq_of_sameConstant h]
  case list | vector => rw [eq_of_samePatterns h]

theorem eq_of_samePatterns {ps qs : PatternSeq} (h : samePatterns ps qs) : ps = qs := by
  cases ps <;> cases qs <;> simp only [samePatterns, Bool.and_eq_true, Bool.false_eq_true] at h
  case done => rfl
  case rest => rw [eq_of_samePattern h]
  case item | repeated => rw [eq_of_samePattern h.1, eq_of_samePatterns h.2]

end

mutual

theorem eq_of_sameTemplate {t u : Template} (h : sameTemplate t u) : t = u := by
  cases t <;> cases u <;> simp only [sameTemplate, beq_iff_eq, Bool.false_eq_true] at h
  case «variable» | free => rw [h]
  case constant => rw [eq_of_sameConstant h]
  case list | vector => rw [eq_of_sameTemplates h]

theorem eq_of_sameTemplates {ts us : TemplateSeq} (h : sameTemplates ts us) : ts = us := by
  cases ts <;> cases us <;>
    simp only [sameTemplates, Bool.and_eq_true, beq_iff_eq, Bool.false_eq_true] at h
  case done => rfl
  case tail => rw [eq_of_sameTemplate h]
  case item => rw [eq_of_sameTemplate h.1.1, h.1.2, eq_of_sameTemplates h.2]

end

theorem eq_of_sameRule {r q : Rule} (h : sameRule r q) : r = q := by
  simp only [sameRule, Bool.and_eq_true, beq_iff_eq] at h
  obtain ⟨⟨⟨hnumber, hpattern⟩, htemplate⟩, hdepths⟩ := h
  cases r
  cases q
  simp only [Rule.mk.injEq]
  exact ⟨hnumber, eq_of_samePattern hpattern, eq_of_sameTemplate htemplate, hdepths⟩

theorem eq_of_sameRules {rs qs : List Rule} (h : sameRules rs qs) : rs = qs := by
  induction rs generalizing qs with
  | nil =>
    cases qs with
    | nil => rfl
    | cons => cases h
  | cons r rs ih =>
    cases qs with
    | nil => cases h
    | cons q qs =>
      obtain ⟨hfirst, hmore⟩ := Bool.and_eq_true_iff.mp h
      rw [eq_of_sameRule hfirst, ih hmore]

theorem eq_of_sameTransformer {t m : Transformer} (h : sameTransformer t m) : t = m := by
  simp only [sameTransformer, Bool.and_eq_true, beq_iff_eq] at h
  obtain ⟨⟨hname, hliterals⟩, hrules⟩ := h
  cases t
  cases m
  simp only [Transformer.mk.injEq]
  exact ⟨hname, hliterals, eq_of_sameRules hrules⟩

end Comparing

def compile? (definition : Datum) : Option Transformer :=
  let (form, s) := definition.place Store.empty
  match s.properList? form with
  | some [keyword, .symbol name, spec] =>
    if keyword.isNamed "define-syntax" then (SyntaxRules.define s name.name spec).toOption
    else none
  | _ => none

def definesAll (cs : List Char) (ms : List Transformer) : Bool :=
  match Reader.readAll cs with
  | .ok definitions =>
    let compiled := definitions.filterMap compile?
    ms.all fun m => compiled.any (sameTransformer · m)
  | .error _ => false

theorem compile?_of_definesAll {text : String} {cs : List Char} {ms : List Transformer}
    (hcs : text.toList = cs) (h : definesAll cs ms) :
    ∃ definitions, Reader.parseProgram text = .ok definitions ∧
      ∀ m ∈ ms, ∃ d ∈ definitions, compile? d = some m := by
  unfold definesAll at h
  cases hread : Reader.readAll cs with
  | error f =>
    rw [hread] at h
    cases h
  | ok definitions =>
    rw [hread] at h
    refine ⟨definitions, by rw [Reader.parseProgram, hcs, hread], fun m hm => ?_⟩
    obtain ⟨t, ht, hsame⟩ := List.any_eq_true.mp (List.all_eq_true.mp h m hm)
    obtain ⟨d, hd, hcompile⟩ := List.mem_filterMap.mp ht
    exact ⟨d, hd, eq_of_sameTransformer hsame ▸ hcompile⟩

set_option maxRecDepth 100000 in
theorem definesAll_prelude : ∃ cs, prelude.toList = cs ∧ definesAll cs forms :=
  ⟨_, String.toList_ofList, by decide +kernel⟩

theorem forms_of_prelude : ∃ definitions, Reader.parseProgram prelude = .ok definitions ∧
    ∀ m ∈ forms, ∃ d ∈ definitions, compile? d = some m := by
  obtain ⟨cs, hcs, h⟩ := definesAll_prelude
  exact compile?_of_definesAll hcs h

end Derived

end HygienicScheme
