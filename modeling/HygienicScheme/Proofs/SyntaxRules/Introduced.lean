import HygienicScheme.Proofs.Store.Slots
import HygienicScheme.Proofs.SyntaxRules.Filled
import HygienicScheme.Proofs.SyntaxRules.Uses
import Mathlib.Data.Set.Function

/-!
# Introduced identifiers

A use puts its own stamp on the identifiers that a template brings, in place of any stamp they have.
So two of them stay apart exactly when their names differ. The templates of a definition that was
read from a text bring no two identifiers of one name. Where an outer transformer wrote the
definition, one may come from the outer template and another, of the same name, from its user; these
are introduced as one.
-/
namespace HygienicScheme

mutual

def Template.brought : Template → List Symbol
  | .free x => [x]
  | .list items | .vector items => items.brought
  | .variable _ | .constant _ => []

def TemplateSeq.brought : TemplateSeq → List Symbol
  | .done => []
  | .tail t => t.brought
  | .item t _ more => t.brought ++ more.brought

end

def Store.NamedApart (s : Store) (v : Value) : Prop :=
  Set.InjOn Symbol.name {x | Relation.ReflTransGen s.Slot v (.symbol x)}

theorem Store.namedApart_of_user {s : Store} {v : Value}
    (h : s.Throughout (fun w => ∀ x, w = .symbol x → x = .user x.name) v) : s.NamedApart v := by
  intro x hx y hy hname
  rw [h _ hx x rfl, h _ hy y rfl, hname]

namespace SyntaxRules

variable {c : Scope} {depths : Depths} {P : Value → Prop}

mutual

theorem TemplateOf.brought : ∀ {escaped n v t}, TemplateOf c depths escaped n v t →
    c.store.Throughout P v → ∀ x ∈ t.brought, P (.symbol x)
  | _, _, _, _, .use _ _, _ | _, _, _, _, .constant _, _ => by simp [Template.brought]
  | _, _, _, _, .free _, hv => by simpa [Template.brought] using hv.here
  | _, _, _, _, .escape hchain _ h, hv =>
    h.brought ((hv.chain hchain).1 _ (by simp))
  | _, _, _, _, .list hchain h, hv => h.brought (hv.chain hchain).1 fun _ => (hv.chain hchain).2
  | _, _, _, _, .vector h, hv => h.brought (fun _ hw => hv.slot (.item hw)) (absurd rfl)

theorem TemplateItemsOf.brought : ∀ {escaped n tail items ts},
    TemplateItemsOf c depths escaped n tail items ts → (∀ v ∈ items, c.store.Throughout P v) →
      (tail ≠ .null → c.store.Throughout P tail) → ∀ x ∈ ts.brought, P (.symbol x)
  | _, _, _, _, _, .done, _, _ => by simp [TemplateSeq.brought]
  | _, _, _, _, _, .tail hnull h, _, htail => h.brought (htail hnull)
  | _, _, _, _, _, .item _ _ h hmore, hitems, htail => by
    obtain ⟨hv, hrest⟩ := List.forall_mem_cons.mp hitems
    intro x hx
    rcases List.mem_append.mp hx with hx | hx
    · exact h.brought hv x hx
    · exact hmore.brought (fun w hw => hrest w (List.mem_of_mem_drop hw)) htail x hx

end

theorem reached_of_brought {store : Store} {name : String} {spec : Value} {t : Transformer}
    (h : define store name spec = .ok t) {r : Rule} (hr : r ∈ t.rules) {x : Symbol}
    (hx : x ∈ r.template.brought) : Relation.ReflTransGen store.Slot spec (.symbol x) := by
  have hspec : store.Throughout (Relation.ReflTransGen store.Slot spec) spec := fun _ hw => hw
  obtain ⟨clauses, hclauses, hrules⟩ := define_rules h
  obtain ⟨number, clause, hclause, hrule⟩ := hrules r hr
  obtain ⟨p, template, hparts, -, htemplate⟩ := ruleOf hrule
  have hrest := (hspec.chain (Store.properList?_eq_some.mp hclauses)).1 clause hclause
  have hread := (hrest.chain (Store.properList?_eq_some.mp hparts)).1 template (by simp)
  exact htemplate.brought hread x hx

end SyntaxRules

namespace MacroUse

variable {u : MacroUse} {s : Store} {x y : Symbol}

/-- A template of the transformer brings the identifier, and it is neither a literal nor the name of
a keyword where the transformer is used. -/
structure Own (u : MacroUse) (s : Store) (x : Symbol) : Prop where
  brought : ∃ r ∈ u.transformer.rules, x ∈ r.template.brought
  literal : u.transformer.isLiteral x = false
  keyword : s.isKeyword u.env x = false

theorem introduce_name (u : MacroUse) (s : Store) (x : Symbol) :
    (u.introduce s x).name = x.name := by
  rw [introduce]
  split_ifs <;> rfl

theorem introduce_eq_iff : u.introduce s x = u.introduce s y ↔ x.name = y.name := by
  constructor
  · intro h
    rw [← u.introduce_name s x, h, u.introduce_name]
  · cases x
    cases y
    rintro rfl
    rfl

theorem introduce_injOn_iff {A : Set Symbol} :
    Set.InjOn (u.introduce s) A ↔ Set.InjOn Symbol.name A := by
  simp only [Set.InjOn, introduce_eq_iff]

theorem Own.introduce_eq (h : u.Own s x) : u.introduce s x = x.stamp u.phase u.index := by
  rw [introduce, h.literal, h.keyword]
  rfl

/-- What becomes of the identifiers that a transformer, defined by a value, brings in its uses. -/
structure Separates (definedIn : Store) (spec : Value) (t : Transformer) (env : Environment)
    (s : Store) : Prop where
  stamped : ∀ phase index x, Own ⟨t, env, phase, index⟩ s x →
    introduce ⟨t, env, phase, index⟩ s x = x.stamp phase index
  /-- They stay apart exactly when no two of them share a name. -/
  injOn_iff : ∀ phase index, Set.InjOn (introduce ⟨t, env, phase, index⟩ s)
      {x | Own ⟨t, env, phase, index⟩ s x} ↔
    Set.InjOn Symbol.name {x | Own ⟨t, env, phase, index⟩ s x}
  injOn_of_alike : definedIn.NamedApart spec → ∀ phase index,
    Set.InjOn (introduce ⟨t, env, phase, index⟩ s) {x | Own ⟨t, env, phase, index⟩ s x}
  /-- What a form is replaced by has them, introduced, where the template of a rule brings them. -/
  filled : ∀ form v s', Expansion.transcribe env t form s = .ok v s' → ∃ r ∈ t.rules, ∃ bs,
    r.bindings s form = .ok bs ∧ Filled ⟨t, env, s.phase, s.uses⟩ s s' r.template bs v

theorem filled_transcribe {t : Transformer} {env : Environment} {form v : Value} {s' : Store}
    (h : Expansion.transcribe env t form s = .ok v s') : ∃ r ∈ t.rules, ∃ bs,
      r.bindings s form = .ok bs ∧ Filled ⟨t, env, s.phase, s.uses⟩ s s' r.template bs v := by
  cases hfound : Expansion.firstMatch? s form t.rules with
  | none =>
    rw [Expansion.transcribe_eq, hfound] at h
    cases h
  | some found =>
    obtain ⟨hr, hbs⟩ := Expansion.firstMatch?_mem hfound
    rw [Expansion.transcribe_found hfound] at h
    obtain ⟨use, s₁, hnext, h⟩ := Action.ok_of_bind h
    cases hnext
    have hframes : { s with uses := min (s.uses + 1) Expansion.maxUses }.frames = s.frames := rfl
    obtain ⟨-, -, hfilled⟩ := fills_transcribe found.1.template found.2 _ _ _ hframes h
    exact ⟨found.1, hr, found.2, hbs, hfilled⟩

theorem separates_of_define {definedIn : Store} {name : String} {spec : Value} {t : Transformer}
    (h : SyntaxRules.define definedIn name spec = .ok t) (env : Environment) (s : Store) :
    Separates definedIn spec t env s where
  stamped _ _ _ hx := hx.introduce_eq
  injOn_iff _ _ := introduce_injOn_iff
  injOn_of_alike hnames _ _ := by
    refine introduce_injOn_iff.mpr (hnames.mono fun x hx => ?_)
    obtain ⟨r, hr, hbrought⟩ := hx.brought
    exact SyntaxRules.reached_of_brought h hr hbrought
  filled _ _ _ := filled_transcribe

def twoBrought (x y : Symbol) : Store :=
  { Store.empty with
    pairs := #[⟨.name "syntax-rules", .pair 1⟩, ⟨.null, .pair 2⟩, ⟨.pair 3, .null⟩,
      ⟨.pair 5, .pair 4⟩, ⟨.pair 6, .null⟩, ⟨.name "_", .null⟩, ⟨.symbol x, .pair 7⟩,
      ⟨.symbol y, .null⟩] }

def twoRule (x y : Symbol) : Rule where
  number := 1
  pattern := .list (.item .wildcard .done)
  template := .list (.item (.free x) 0 (.item (.free y) 0 .done))
  depths := []

def two (x y : Symbol) : Transformer := ⟨"two", [], [twoRule x y]⟩

theorem define_two {x y : Symbol} (hx : x.name ≠ SyntaxRules.ellipsis)
    (hy : y.name ≠ SyntaxRules.ellipsis) :
    SyntaxRules.define (twoBrought x y) "two" (.pair 0) = .ok (two x y) := by
  set c : SyntaxRules.Scope := ⟨twoBrought x y, "two", []⟩
  have hfree : ∀ z : Symbol, z.name ≠ SyntaxRules.ellipsis →
      SyntaxRules.isEllipsis (.symbol z) = false ∧
        SyntaxRules.template c [] 99 false 0 (.symbol z) = .ok (.free z) := by
    intro z hz
    have hname : (z.name == SyntaxRules.ellipsis) = false := beq_eq_false_iff_ne.mpr hz
    refine ⟨hname, ?_⟩
    rw [SyntaxRules.template, hname]
    rfl
  have hitems : SyntaxRules.templateItems c (SyntaxRules.template c [] 99 false) 0 false .null
      [.symbol x, .symbol y] = .ok (.item (.free x) 0 (.item (.free y) 0 .done)) :=
    SyntaxRules.templateItems_plain (.cons (hfree x hx) (.cons (hfree y hy) .nil))
  have hescape : SyntaxRules.escapedTemplate? false [.symbol x, .symbol y] .null = none := by
    simp [SyntaxRules.escapedTemplate?, (hfree x hx).1]
  have htemplate : SyntaxRules.template c [] 100 false 0 (.pair 6) =
      .ok (.list (.item (.free x) 0 (.item (.free y) 0 .done))) := by
    rw [SyntaxRules.template, show c.store.splitList? (.pair 6) =
      some ([.symbol x, .symbol y], .null) from rfl]
    dsimp only
    rw [hescape, hitems]
    rfl
  have hrule : SyntaxRules.rule c 1 (.pair 3) = .ok (twoRule x y) :=
    congrArg (· >>= fun t => (.ok ⟨1, .list (.item .wildcard .done), t, []⟩ : Except Error Rule))
      htemplate
  have hrules : SyntaxRules.rules c 1 [.pair 3] = .ok [twoRule x y] :=
    congrArg (· >>= fun r => (.ok [r] : Except Error (List Rule))) hrule
  exact congrArg (· >>= fun rs => (.ok ⟨"two", [], rs⟩ : Except Error Transformer)) hrules

theorem alike_two (x y : String) :
    (twoBrought (.user x) (.user y)).NamedApart (.pair 0) := by
  refine Store.namedApart_of_user (.of_invariant ?_ (by simp))
  intro v w _ hslot
  cases hslot with
  | @car a =>
    match a with
    | 0 | 1 | 2 | 3 | 4 | 5 | 6 | 7 => rintro z ⟨⟩ <;> rfl
    | a + 8 => rintro z ⟨⟩
  | @cdr a =>
    match a with
    | 0 | 1 | 2 | 3 | 4 | 5 | 6 | 7 => rintro z ⟨⟩
    | a + 8 => rintro z ⟨⟩
  | item hw => exact absurd hw (by simp [Store.vectorAt, twoBrought, Store.empty])

theorem own_two {x y z : Symbol} (h : z = x ∨ z = y) (hz : isCoreKeyword z.name = false)
    (phase : Int) (index : Nat) : Own ⟨two x y, ⟨0, []⟩, phase, index⟩ Store.empty z where
  brought := by
    refine ⟨twoRule x y, List.mem_cons_self, ?_⟩
    simpa [twoRule, Template.brought, TemplateSeq.brought] using h
  literal := rfl
  keyword := by
    rw [Store.isKeyword, hz]
    rfl

/-- An identifier of an outer template and one of its user, of the same name, are introduced as
one; identifiers without stamps stay apart. -/
theorem separates_of_define_two :
    (SyntaxRules.define (twoBrought ⟨"tmp", 3, 0⟩ (.user "tmp")) "two" (.pair 0) =
        .ok (two ⟨"tmp", 3, 0⟩ (.user "tmp")) ∧
      ¬ Set.InjOn (introduce ⟨two ⟨"tmp", 3, 0⟩ (.user "tmp"), ⟨0, []⟩, 4, 0⟩ Store.empty)
        {x | Own ⟨two ⟨"tmp", 3, 0⟩ (.user "tmp"), ⟨0, []⟩, 4, 0⟩ Store.empty x}) ∧
    SyntaxRules.define (twoBrought (.user "tmp") (.user "v")) "two" (.pair 0) =
        .ok (two (.user "tmp") (.user "v")) ∧
      Set.InjOn (introduce ⟨two (.user "tmp") (.user "v"), ⟨0, []⟩, 4, 0⟩ Store.empty)
        {x | Own ⟨two (.user "tmp") (.user "v"), ⟨0, []⟩, 4, 0⟩ Store.empty x} := by
  have hclash := define_two (x := ⟨"tmp", 3, 0⟩) (y := .user "tmp") (by decide) (by decide)
  have hapart := define_two (x := .user "tmp") (y := .user "v") (by decide) (by decide)
  refine ⟨⟨hclash, fun hinj => ?_⟩, hapart, ?_⟩
  · have hnames := ((separates_of_define hclash ⟨0, []⟩ Store.empty).injOn_iff 4 0).mp hinj
    have heq := hnames (own_two (.inl rfl) (by decide) 4 0) (own_two (.inr rfl) (by decide) 4 0) rfl
    exact absurd heq (by decide)
  · refine (separates_of_define hapart ⟨0, []⟩ Store.empty).injOn_of_alike ?_ 4 0
    exact alike_two "tmp" "v"

end MacroUse

end HygienicScheme
