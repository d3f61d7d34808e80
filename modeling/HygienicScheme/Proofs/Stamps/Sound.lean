import HygienicScheme.Proofs.Discipline.Evaluation
import HygienicScheme.Proofs.Stamps.Forms

/-!
# Forms whose stamps stay in code

A form is sound when the evaluator, following it the way it does, comes upon stamped symbols only
where it takes them for code. What it takes for data is clean. What may change in a store while a
program runs are clean cells, and so forms stay sound.
-/
namespace HygienicScheme

namespace Store

open Machine (specialForm?)

inductive Sound (s : Store) : Role → Value → Prop
  | clean {role : Role} {v : Value} (h : s.Clean v) : Sound s role v
  | symbol (x : Symbol) : Sound s .code (.symbol x)
  /-- The definition of a transformer, of which the evaluator looks at nothing. -/
  | definition {a : Address} (ha : a < s.pairs.size)
      (hcar : specialForm? (s.pairAt a).car = some .defineSyntax) : Sound s .code (.pair a)
  | quasiquotation {a : Address} (ha : a < s.pairs.size)
      (hcar : specialForm? (s.pairAt a).car = some .quasiquote)
      (hcdr : ∀ b, (s.pairAt a).cdr = .pair b → b < s.pairs.size)
      (ht : ∀ v, s.properList? (s.pairAt a).cdr = some [v] → Sound s (.template 1) v) :
      Sound s .code (.pair a)
  | form {a : Address} (ha : a < s.pairs.size) (hcar : Sound s .code (s.pairAt a).car)
      (hcdr : Sound s .operands (s.pairAt a).cdr)
      (hquote : specialForm? (s.pairAt a).car ≠ some .quote)
      (hquasiquote : specialForm? (s.pairAt a).car ≠ some .quasiquote) : Sound s .code (.pair a)
  | last {v : Value} (hv : ∀ a, v ≠ .pair a) : Sound s .operands v
  | operand {a : Address} (ha : a < s.pairs.size) (hcar : Sound s .code (s.pairAt a).car)
      (hcdr : Sound s .operands (s.pairAt a).cdr) : Sound s .operands (.pair a)
  | inner {a : Address} {level : Nat} {keyword : QuasiKeyword} {operand : Value}
      (ha : a < s.pairs.size) (hcar : s.Clean (s.pairAt a).car)
      (hcdr : ∀ b, (s.pairAt a).cdr = .pair b → b < s.pairs.size)
      (hform : s.quasiForm? (.pair a) = some (keyword, operand))
      (hoperand : Sound s (.within keyword level) operand) : Sound s (.template level) (.pair a)
  | cons {a : Address} {level : Nat} (ha : a < s.pairs.size)
      (hform : s.quasiForm? (.pair a) = none) (hcar : Sound s (.template level) (s.pairAt a).car)
      (hcdr : Sound s (.template level) (s.pairAt a).cdr) : Sound s (.template level) (.pair a)
  | items {a : Address} {level : Nat} (ha : a < s.vectors.size)
      (h : ∀ v ∈ (s.vectorAt a).toList, Sound s (.template level) v) :
      Sound s (.template level) (.vector a)

variable {s t u : Store} {v w : Value} {items : List Value} {a : Address} {level : Nat}

namespace Sound

theorem lt_of_pair {role : Role} (h : s.Sound role (.pair a)) (hrole : role ≠ .operands) :
    a < s.pairs.size := by
  cases h with
  | clean h => exact h.plain
  | last => exact absurd rfl hrole
  | _ => assumption

theorem code_atom (h : s.Sound .code v) (hp : ∀ a, v ≠ .pair a) (hx : ∀ x, v ≠ .symbol x) :
    s.Clean v := by
  cases h with
  | clean h => exact h
  | symbol x => exact absurd rfl (hx x)
  | definition | quasiquotation | form => exact absurd rfl (hp _)

theorem template_atom (h : s.Sound (.template level) v) (hp : ∀ a, v ≠ .pair a)
    (hv : ∀ a, v ≠ .vector a) : s.Clean v := by
  cases h with
  | clean h => exact h
  | inner | cons => exact absurd rfl (hp _)
  | items => exact absurd rfl (hv _)

theorem template_item (h : s.Sound (.template level) (.vector a)) :
    ∀ v ∈ (s.vectorAt a).toList, s.Sound (.template level) v := by
  cases h with
  | clean h => exact fun v hv => .clean (h.slot (.item hv))
  | items _ h => exact h

theorem template_operand {keyword : QuasiKeyword} {operand : Value}
    (h : s.Sound (.template level) (.pair a))
    (hform : s.quasiForm? (.pair a) = some (keyword, operand)) :
    s.Sound (.within keyword level) operand := by
  cases h with
  | clean h =>
    obtain ⟨head, b, ha, -, hb⟩ := quasiForm?_eq_some.mp hform
    have hcdr : s.Clean (s.pairAt a).cdr := h.slot .cdr
    rw [ha] at hcdr
    have hoperand : s.Clean (s.pairAt b).car := hcdr.slot .car
    rw [hb] at hoperand
    exact .clean hoperand
  | inner _ _ _ hform' hoperand =>
    rw [hform'] at hform
    cases hform
    exact hoperand
  | cons _ hnone =>
    rw [hnone] at hform
    cases hform

theorem template_slots (h : s.Sound (.template level) (.pair a))
    (hform : s.quasiForm? (.pair a) = none) :
    s.Sound (.template level) (s.pairAt a).car ∧ s.Sound (.template level) (s.pairAt a).cdr := by
  cases h with
  | clean h => exact ⟨.clean (h.slot .car), .clean (h.slot .cdr)⟩
  | inner _ _ _ hform' =>
    rw [hform'] at hform
    cases hform
  | cons _ _ hcar hcdr => exact ⟨hcar, hcdr⟩

theorem quoted (h : s.Sound .code (.pair a))
    (hcar : specialForm? (s.pairAt a).car = some .quote) : s.Clean (.pair a) := by
  cases h with
  | clean h => exact h
  | definition _ hcar' | quasiquotation _ hcar' =>
    rw [hcar'] at hcar
    cases hcar
  | form _ _ _ hquote => exact absurd hcar hquote

theorem quasiquoted (h : s.Sound .code (.pair a))
    (hcar : specialForm? (s.pairAt a).car = some .quasiquote)
    (hcdr : s.properList? (s.pairAt a).cdr = some [v]) : s.Sound (.template 1) v := by
  cases h with
  | clean h => exact .clean ((h.slot .cdr).properList hcdr v (by simp))
  | definition _ hcar' =>
    rw [hcar'] at hcar
    cases hcar
  | quasiquotation _ _ _ ht => exact ht v hcdr
  | form _ _ _ _ hquasiquote => exact absurd hcar hquasiquote

theorem slots (h : s.Sound .code (.pair a))
    (hquasiquote : specialForm? (s.pairAt a).car ≠ some .quasiquote)
    (hdefinition : specialForm? (s.pairAt a).car ≠ some .defineSyntax) :
    s.Sound .code (s.pairAt a).car ∧ s.Sound .operands (s.pairAt a).cdr := by
  cases h with
  | clean h => exact ⟨.clean (h.slot .car), .clean (h.slot .cdr)⟩
  | definition _ hcar => exact absurd hcar hdefinition
  | quasiquotation _ hcar => exact absurd hcar hquasiquote
  | form _ hcar hcdr => exact ⟨hcar, hcdr⟩

theorem operands (h : s.Sound .operands v) (hlist : s.properList? v = some items) :
    ∀ w ∈ items, s.Sound .code w := by
  have hchain := properList?_eq_some.mp hlist
  clear hlist
  generalize Value.null = tail at hchain
  induction hchain with
  | tail => simp
  | @pair a items tail _ ih =>
    cases h with
    | clean h =>
      exact List.forall_mem_cons.mpr ⟨.clean (h.slot .car), ih (.clean (h.slot .cdr))⟩
    | last hv => exact absurd rfl (hv a)
    | operand _ hcar hcdr => exact List.forall_mem_cons.mpr ⟨hcar, ih hcdr⟩

end Sound

/-- A cell that changed was clean and is clean; a form holds on to its cells otherwise. -/
theorem Sound.update {role : Role} (h : s.Sound role v) (hst : s.Updates t) : t.Sound role v := by
  -- Either the pair is untouched, or it is clean in the later store whatever it was before.
  have hcell : ∀ {b}, b < s.pairs.size → t.pairAt b = s.pairAt b ∨ t.Clean (.pair b) := by
    intro b hb
    rcases hst.pair hb with heq | hnew
    · exact .inl heq
    · exact .inr (hnew.1.update hst)
  induction h with
  | clean h => exact .clean (h.update hst)
  | symbol x => exact .symbol x
  | @definition a ha hcar =>
    rcases hcell ha with heq | hclean
    · rw [← heq] at hcar
      exact .definition (Nat.lt_of_lt_of_le ha hst.pairs_le) hcar
    · exact .clean hclean
  | @quasiquotation a ha hcar hcdr _ ih =>
    rcases hcell ha with heq | hclean
    · rw [← heq] at hcar
      refine .quasiquotation (Nat.lt_of_lt_of_le ha hst.pairs_le) hcar ?_ fun v hv => ?_
      · intro b hb
        rw [heq] at hb
        exact Nat.lt_of_lt_of_le (hcdr b hb) hst.pairs_le
      rw [heq] at hv
      obtain ⟨b, hb, hcell'⟩ := properList?_singleton.mp hv
      rcases hcell (hcdr b hb) with heq' | hclean
      · exact ih v (properList?_singleton.mpr ⟨b, hb, by rw [← heq', hcell']⟩)
      · have hcar := hclean.slot .car
        rw [hcell'] at hcar
        exact .clean hcar
    · exact .clean hclean
  | @form a ha _ _ hquote hquasiquote hcar hcdr =>
    rcases hcell ha with heq | hclean
    · rw [← heq] at hquote hquasiquote hcar hcdr
      exact .form (Nat.lt_of_lt_of_le ha hst.pairs_le) hcar hcdr hquote hquasiquote
    · exact .clean hclean
  | last hv => exact .last hv
  | @operand a ha _ _ hcar hcdr =>
    rcases hcell ha with heq | hclean
    · rw [← heq] at hcar hcdr
      exact .operand (Nat.lt_of_lt_of_le ha hst.pairs_le) hcar hcdr
    · exact .clean hclean
  | @inner a level keyword operand ha hcar hcdr hform _ ih =>
    rcases hcell ha with heq | hclean
    · obtain ⟨head, b, hpair, hhead, hb⟩ := quasiForm?_eq_some.mp hform
      have hb' : b < s.pairs.size := hcdr b (by rw [hpair])
      have hcar' : t.Clean (t.pairAt a).car := by
        rw [heq]
        exact hcar.update hst
      have ha' := Nat.lt_of_lt_of_le ha hst.pairs_le
      rcases hcell hb' with heq' | hclean
      · refine .inner ha' hcar' ?_ (quasiForm?_eq_some.mpr ⟨head, b, ?_, hhead, ?_⟩) ih
        · intro c hc
          rw [heq] at hc
          exact Nat.lt_of_lt_of_le (hcdr c hc) hst.pairs_le
        · rw [heq, hpair]
        · rw [heq', hb]
      · have hcdr' : t.Clean (t.pairAt a).cdr := by rwa [heq, hpair]
        exact .clean (clean_pair.mpr ⟨ha', hcar', hcdr'⟩)
    · exact .clean hclean
  | @cons a level ha hform hsound hsound' hcar hcdr =>
    rcases hcell ha with heq | hclean
    · have ha' := Nat.lt_of_lt_of_le ha hst.pairs_le
      rw [← heq] at hcar hcdr
      cases hform' : t.quasiForm? (.pair a) with
      | none => exact .cons ha' hform' hcar hcdr
      | some q =>
        -- The pair became a form since its second pair was given another end, and is clean.
        obtain ⟨head, b, hpair, hhead, hb⟩ := quasiForm?_eq_some.mp hform'
        rw [hpair] at hcar
        rw [← heq, hpair] at hsound'
        have hcar' := hcar.template_atom (by simp) (by simp)
        rcases hcell (hsound'.lt_of_pair (by simp)) with heq' | hclean
        · have hsome := quasiForm?_eq_some.mpr ⟨head, b, heq ▸ hpair, hhead, heq' ▸ hb⟩
          rw [hform] at hsome
          cases hsome
        · exact .clean (clean_pair.mpr ⟨ha', by rwa [hpair], by rwa [hpair]⟩)
    · exact .clean hclean
  | @items a level ha _ ih =>
    rcases hst.vector ha with heq | hnew
    · rw [← heq] at ih
      exact .items (Nat.lt_of_lt_of_le ha hst.vectors_le) ih
    · exact .clean (hnew.1.update hst)

structure Evolves (s t : Store) : Prop where
  clean : ∀ {v}, s.Clean v → t.Clean v
  sound : ∀ {role v}, s.Sound role v → t.Sound role v

theorem Evolves.refl (s : Store) : s.Evolves s := ⟨id, id⟩

theorem Evolves.trans (h : s.Evolves t) (k : t.Evolves u) : s.Evolves u :=
  ⟨fun hv => k.clean (h.clean hv), fun hv => k.sound (h.sound hv)⟩

theorem Updates.evolves (h : s.Updates t) : s.Evolves t :=
  ⟨fun hv => hv.update h, fun hv => hv.update h⟩

theorem Grows.evolves (h : s.Grows t) : s.Evolves t := h.updates.evolves

end Store

end HygienicScheme
