import HygienicScheme.Proofs.Expansion.Equations
import HygienicScheme.Proofs.SyntaxRules.Deciding
import HygienicScheme.Proofs.SyntaxRules.Filling

/-!
# Which rule a use takes

A use of a transformer takes the first rule of which it is an instance. It is refused for want of a
rule exactly where it is an instance of none.
-/
namespace HygienicScheme

open SyntaxRules (instance_of_match match_of_instance matchPattern_binds)

namespace Store

variable {s : Store} {v tail : Value} {items : List Value}

theorem straight_leaf (hp : ∀ a, v ≠ .pair a) (hv : ∀ a, v ≠ .vector a) : s.Straight v :=
  throughout_leaf hp hv ⟨[], v, .tail hp⟩

theorem Chain.straight (h : s.Chain v items tail) (hitems : ∀ w ∈ items, s.Straight w)
    (htail : s.Straight tail) : s.Straight v := by
  induction h with
  | tail => exact htail
  | pair hcdr ih =>
    obtain ⟨hcar, hmore⟩ := List.forall_mem_cons.mp hitems
    refine throughout_of_slots ⟨_, _, .pair hcdr⟩ fun w hw => ?_
    cases hw with
    | car => exact hcar
    | cdr => exact ih hmore htail

end Store

namespace Expansion

variable {s : Store} {form : Value} {before after : List Rule} {r : Rule} {bs : Bindings}

theorem firstMatch?_skip (h : ∀ q ∈ before, ∀ bs, q.bindings s form ≠ .ok bs) :
    firstMatch? s form (before ++ after) = firstMatch? s form after := by
  induction before with
  | nil => rfl
  | cons q more ih =>
    obtain ⟨hq, hmore⟩ := List.forall_mem_cons.mp h
    rw [List.cons_append, firstMatch?]
    cases hbindings : q.bindings s form with
    | ok bs => exact absurd hbindings (hq bs)
    | error => exact ih hmore

theorem firstMatch?_eq_none :
    firstMatch? s form before = none ↔ ∀ q ∈ before, ∀ bs, q.bindings s form ≠ .ok bs := by
  constructor
  · intro h
    induction before with
    | nil => simp
    | cons q more ih =>
      rw [firstMatch?] at h
      cases hbindings : q.bindings s form with
      | ok bs =>
        rw [hbindings] at h
        cases h
      | error problem =>
        rw [hbindings] at h
        refine List.forall_mem_cons.mpr ⟨fun bs hbs => ?_, ih h⟩
        cases hbindings.symm.trans hbs
  · intro h
    rw [← List.append_nil before, firstMatch?_skip h, firstMatch?]

/-- What a use of a transformer comes to, as the instances of its rules have it. -/
structure Decided (s : Store) (env : Environment) (t : Transformer) (form : Value) : Prop where
  /-- A rule matches where the form is an instance of its pattern, and binds what this says. -/
  matches_iff : ∀ r ∈ t.rules, ∀ σ,
    (∃ bs, r.bindings s form = .ok bs ∧ bs.assignment = σ) ↔ s.Instance r.pattern form σ
  /-- The variables on record are bound, each once, and nothing else is. -/
  vars_eq : ∀ r ∈ t.rules, ∀ bs, r.bindings s form = .ok bs →
    bs.map Prod.fst = r.depths.map Prod.fst ∧ (r.depths.map Prod.fst).Nodup
  uniform : ∀ r ∈ t.rules, ∀ bs, r.bindings s form = .ok bs → ∀ d ∈ r.depths,
    ∃ b, bs.lookup d.1 = some b ∧ b.Uniform d.2
  takes_first : ∀ before r after σ, t.rules = before ++ r :: after →
    (∀ q ∈ before, ∀ τ, ¬ s.Instance q.pattern form τ) → s.Instance r.pattern form σ →
    ∃ bs, bs.assignment = σ ∧ transcribe env t form s =
      (nextUse >>= fun (phase, index) =>
        MacroUse.transcribe ⟨t, env, phase, index⟩ r.template bs) s
  refuses : (∀ r ∈ t.rules, ∀ σ, ¬ s.Instance r.pattern form σ) →
    transcribe env t form s = .error (.noMatchingRule t.name (s.writeText form)) s
  refuses_only : ∀ name text s', transcribe env t form s = .error (.noMatchingRule name text) s' →
    ∀ r ∈ t.rules, ∀ σ, ¬ s.Instance r.pattern form σ

theorem transcribe_found {env : Environment} {t : Transformer}
    (h : firstMatch? s form t.rules = some (r, bs)) : transcribe env t form s =
      (nextUse >>= fun (phase, index) =>
        MacroUse.transcribe ⟨t, env, phase, index⟩ r.template bs) s := by
  rw [transcribe_eq, h]

/-- Compiled transformers decide instances in forms without circular lists. -/
theorem decided_of_define {store : Store} {name : String} {spec : Value} {t : Transformer}
    (hdefine : SyntaxRules.define store name spec = .ok t) (env : Environment)
    (hform : s.Straight form) : Decided s env t form := by
  obtain ⟨clauses, -, hrule⟩ := SyntaxRules.define_rules hdefine
  have hmatches : ∀ r ∈ t.rules, ∀ σ,
      (∃ bs, r.bindings s form = .ok bs ∧ bs.assignment = σ) ↔ s.Instance r.pattern form σ := by
    intro r hr σ
    obtain ⟨number, clause, -, hclause⟩ := hrule r hr
    obtain ⟨hpattern, hvars, -⟩ := SyntaxRules.rule_shape hclause
    constructor
    · rintro ⟨bs, hbs, rfl⟩
      exact instance_of_match hpattern hvars hbs
    · exact fun h => match_of_instance hpattern hvars h hform
  have hbinds : ∀ r ∈ t.rules, ∀ bs, r.bindings s form = .ok bs →
      Binds r.depths bs ∧ (r.depths.map Prod.fst).Nodup := by
    intro r hr bs hbs
    obtain ⟨number, clause, -, hclause⟩ := hrule r hr
    obtain ⟨-, hvars, hdepths⟩ := SyntaxRules.rule_shape hclause
    rw [hdepths, r.pattern.map_fst_depths]
    exact ⟨matchPattern_binds hvars hbs, hvars⟩
  have hnone : ∀ {qs : List Rule}, (∀ q ∈ qs, q ∈ t.rules) →
      (∀ q ∈ qs, ∀ τ, ¬ s.Instance q.pattern form τ) →
      ∀ q ∈ qs, ∀ bs, q.bindings s form ≠ .ok bs := by
    intro qs hqs h q hq bs hbs
    exact h q hq _ ((hmatches q (hqs q hq) _).mp ⟨bs, hbs, rfl⟩)
  exact {
    matches_iff := hmatches
    vars_eq := fun r hr bs hbs => ⟨(hbinds r hr bs hbs).1.keys, (hbinds r hr bs hbs).2⟩
    uniform := by
      intro r hr bs hbs d hd
      obtain ⟨hbs, hnodup⟩ := hbinds r hr bs hbs
      exact hbs.lookup (SyntaxRules.lookup_of_mem hnodup hd)
    takes_first := by
      intro before r after σ hrules hbefore hr
      obtain ⟨bs, hbs, hσ⟩ := (hmatches r (hrules ▸ by simp) σ).mpr hr
      refine ⟨bs, hσ, transcribe_found ?_⟩
      rw [hrules, firstMatch?_skip (hnone (fun q hq => hrules ▸ by simp [hq]) hbefore), firstMatch?,
        hbs]
    refuses := by
      intro h
      rw [transcribe_eq, firstMatch?_eq_none.mpr (hnone (fun _ hq => hq) h)]
      rfl
    refuses_only := by
      intro name' text s' herror r hr σ hσ
      obtain ⟨bs, hbs, -⟩ := (hmatches r hr σ).mpr hσ
      cases hfound : firstMatch? s form t.rules with
      | none => exact firstMatch?_eq_none.mp hfound r hr bs hbs
      | some found =>
        -- A rule was taken, and filling in its template ends in other errors.
        obtain ⟨hmem, hmatch⟩ := firstMatch?_mem hfound
        obtain ⟨number, clause, -, hclause⟩ := hrule found.1 hmem
        rw [transcribe_found hfound] at herror
        have hstuck := MacroUse.failsWith_rule (u := ⟨t, env, s.phase, s.uses⟩) hclause hmatch
          (.inr fun _ => id) _ _ _ herror
        cases hstuck }

theorem decided_each : Decided MacroUse.eachUse ⟨0, []⟩ MacroUse.each (.pair 10) := by
  have hchain : MacroUse.eachUse.Chain (.pair 10) [.name "each", .int 1, .int 2] .null :=
    Store.splitList?_eq_some.mp rfl
  have hleaf : ∀ v : Value, v.isConstant ∨ (∃ x, v = .symbol x) → MacroUse.eachUse.Straight v := by
    rintro v (hv | ⟨x, rfl⟩)
    · exact Store.straight_leaf (by rintro a rfl; cases hv) (by rintro a rfl; cases hv)
    · exact Store.straight_leaf (by simp) (by simp)
  refine decided_of_define MacroUse.define_each ⟨0, []⟩ (hchain.straight ?_ (hleaf _ (.inl rfl)))
  simp only [List.forall_mem_cons, List.not_mem_nil, false_implies, implies_true, and_true]
  exact ⟨hleaf _ (.inr ⟨_, rfl⟩), hleaf _ (.inl rfl), hleaf _ (.inl rfl)⟩

end Expansion

end HygienicScheme
