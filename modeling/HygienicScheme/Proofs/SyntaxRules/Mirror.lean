import HygienicScheme.Proofs.Store.Copies
import HygienicScheme.Proofs.SyntaxRules.Shape

/-!
# Patterns read as templates

A value can be read as a pattern and as a template. Where the pattern has a variable wherever
something is left open, the two readings have the same parts in the same places, and every ellipsis
of the one is a single ellipsis of the other.
-/
namespace HygienicScheme

open SyntaxRules (Depths Scope PatternOf PatternItemsOf TemplateOf TemplateItemsOf isEllipsis)

mutual

def Pattern.Reversible : Pattern → Prop
  | .wildcard | .literal _ => False
  | .variable _ | .constant _ => True
  | .list items | .vector items => items.Reversible

def PatternSeq.Reversible : PatternSeq → Prop
  | .done => True
  | .rest p => p.Reversible
  | .item p more => p.Reversible ∧ more.Reversible
  | .repeated p after => p.vars ≠ [] ∧ p.Reversible ∧ after.Reversible

end

mutual

inductive Mirror : Pattern → Template → Prop
  | binder {x} : Mirror (.variable x) (.variable x)
  | constant {v w} (hv : v.isConstant) (hw : w.isConstant) (h : v.same w) :
      Mirror (.constant v) (.constant w)
  | null : Mirror (.list .done) (.constant .null)
  | list {ps ts} (h : MirrorItems ps ts) : Mirror (.list ps) (.list ts)
  | vector {ps ts} (h : MirrorItems ps ts) : Mirror (.vector ps) (.vector ts)

inductive MirrorItems : PatternSeq → TemplateSeq → Prop
  | done : MirrorItems .done .done
  | rest {p t} (h : Mirror p t) : MirrorItems (.rest p) (.tail t)
  | item {p t ps ts} (h : Mirror p t) (hmore : MirrorItems ps ts) :
      MirrorItems (.item p ps) (.item t 0 ts)
  | repeated {p t ps ts} (h : Mirror p t) (hvars : p.vars ≠ []) (hmore : MirrorItems ps ts) :
      MirrorItems (.repeated p ps) (.item t 1 ts)

end

inductive MirrorRest : PatternSeq → Template → Prop
  | rest {p t} (h : Mirror p t) : MirrorRest (.rest p) t
  | null : MirrorRest .done (.constant .null)
  | list {ps ts} (h : MirrorItems ps ts) : MirrorRest ps (.list ts)

namespace Store.Alike

variable {s : Store} {v w : Value}

theorem isNamed (h : s.Alike v w) (name : String) : w.isNamed name = v.isNamed name := by
  obtain ⟨n, h⟩ := h
  cases n with
  | zero => cases h
  | succ n =>
    cases v with
    | symbol x =>
      cases w with
      | symbol y =>
        obtain rfl : x = y := by simpa [equalWithin, Value.eqv] using h
        rfl
      | _ => cases h
    | _ =>
      cases w with
      | symbol y => cases h
      | _ => rfl

theorem symbol {x : Symbol} (h : s.Alike (.symbol x) w) : w = .symbol x := by
  obtain ⟨n, h⟩ := h
  cases n with
  | zero => cases h
  | succ n =>
    cases w with
    | symbol y =>
      obtain rfl : x = y := by simpa [equalWithin, Value.eqv] using h
      rfl
    | _ => cases h

theorem null_iff (h : s.Alike v w) : v = .null ↔ w = .null := by
  obtain ⟨n, h⟩ := h
  cases n with
  | zero => cases h
  | succ n =>
    constructor
    · rintro rfl
      cases w <;> first | rfl | cases h
    · rintro rfl
      cases v <;> first | rfl | cases h

theorem constant (h : s.Alike v w) (hv : v.isConstant) : w.isConstant ∧ v.same w := by
  obtain ⟨n, h⟩ := h
  cases n with
  | zero => cases h
  | succ n =>
    rw [equalWithin_constant hv, Option.some.injEq] at h
    refine ⟨?_, h⟩
    cases w with
    | symbol | pair | vector => cases v <;> first | cases hv; done | cases h
    | _ => rfl

theorem vector {a : Address} (h : s.Alike (.vector a) w) : ∃ b, w = .vector b ∧
    List.Forall₂ s.Alike (s.vectorAt a).toList (s.vectorAt b).toList := by
  obtain ⟨n, h⟩ := h
  cases n with
  | zero => cases h
  | succ n =>
    cases w with
    | vector b =>
      refine ⟨b, rfl, ?_⟩
      rcases equalWithin_vector.mp h with rfl | h
      · exact List.forall₂_same.mpr fun v _ => refl v
      · exact h.imp fun _ _ h => ⟨n, h⟩
    | _ => cases h

theorem pair {a : Address} (h : s.Alike (.pair a) w) : ∃ b, w = .pair b := by
  obtain ⟨n, h⟩ := h
  cases n with
  | zero => cases h
  | succ n =>
    cases w with
    | pair b => exact ⟨b, rfl⟩
    | _ => cases h

end Store.Alike

namespace SyntaxRules

variable {c : Scope} {depths : Depths}

theorem ellipsesOf_eq_zero {items : List Value} (h : ∀ v ∈ items.head?, isEllipsis v = false) :
    ellipsesOf items = 0 := by
  cases items with
  | nil => rfl
  | cons v more => simp [ellipsesOf, h v rfl]

theorem ellipsesOf_eq_one {v : Value} {items : List Value} (hv : isEllipsis v)
    (h : ellipsesOf items = 0) : ellipsesOf (v :: items) = 1 := by
  rw [ellipsesOf, List.takeWhile_cons_of_pos hv, List.length_cons, ← ellipsesOf, h]

theorem head?_not_ellipsis {items items' : List Value}
    (hitems : List.Forall₂ c.store.Alike items items')
    (h : ∀ v ∈ items.head?, isEllipsis v = false) : ∀ v ∈ items'.head?, isEllipsis v = false := by
  cases hitems with
  | nil => simp
  | cons hv =>
    intro v hmem
    obtain rfl := Option.some.inj hmem
    exact (hv.isNamed _).trans (h _ rfl)

mutual

theorem PatternOf.mirror : ∀ {n v seen p seen' k w t}, PatternOf c n v seen p seen' →
    p.Reversible → (∀ x ∈ p.vars, ∃ m, depths.lookup x = some m) → c.store.Alike v w →
    TemplateOf c depths false k w t → Mirror p t
  | _, _, _, _, _, _, _, _, .wildcard _, hp, _, _, _
  | _, _, _, _, _, _, _, _, .literal _, hp, _, _, _ => hp.elim
  | _, _, _, _, _, _, _, _, .binder _, _, hvars, halike, ht => by
    cases halike.symbol
    cases ht with
    | use => exact .binder
    | free hx =>
      obtain ⟨m, hm⟩ := hvars _ (List.mem_singleton_self _)
      cases hx.symm.trans hm
    | constant hv => cases hv
  | _, _, _, _, _, _, _, _, .list hchain h, hp, hvars, halike, ht => by
    obtain ⟨b, rfl⟩ := halike.pair
    obtain ⟨items', tail', hchain', hitems, htail⟩ := halike.chain hchain
    cases ht with
    | escape hescape hhead =>
      -- An escaped template starts with an ellipsis, which a pattern never does.
      obtain ⟨rfl, rfl⟩ := hchain'.unique hescape
      have hhead' := head?_not_ellipsis hitems h.head_not_ellipsis _ rfl
      rw [hhead'] at hhead
      cases hhead
    | list hlist ht =>
      obtain ⟨rfl, rfl⟩ := hchain'.unique hlist
      exact .list (h.mirror hp hvars hitems htail ht)
    | constant hv => cases hv
  | _, _, _, _, _, _, _, _, .null, _, _, halike, ht => by
    obtain rfl := halike.null_iff.mp rfl
    cases ht
    exact .null
  | _, _, _, _, _, _, _, _, .vector h, hp, hvars, halike, ht => by
    obtain ⟨b, rfl, hitems⟩ := halike.vector
    cases ht with
    | vector ht => exact .vector (h.mirror hp hvars hitems (.refl _) ht)
    | constant hv => cases hv
  | _, _, _, _, _, _, _, _, .constant hv _, _, _, halike, ht => by
    obtain ⟨hw, hsame⟩ := halike.constant hv
    cases ht with
    | constant => exact .constant hv hw hsame
    | _ => cases hw

theorem PatternItemsOf.mirror : ∀ {n tail repeats items seen ps seen' k items' tail' ts},
    PatternItemsOf c n tail repeats items seen ps seen' → ps.Reversible →
    (∀ x ∈ ps.vars, ∃ m, depths.lookup x = some m) → List.Forall₂ c.store.Alike items items' →
    c.store.Alike tail tail' → TemplateItemsOf c depths false k tail' items' ts → MirrorItems ps ts
  | _, _, _, _, _, _, _, _, _, _, _, .done, _, _, hitems, htail, ht => by
    cases hitems
    obtain rfl := htail.null_iff.mp rfl
    cases ht with
    | done => exact .done
    | tail hnull => exact absurd rfl hnull
  | _, _, _, _, _, _, _, _, _, _, _, .rest hnull h, hp, hvars, hitems, htail, ht => by
    cases hitems
    cases ht with
    | done => exact absurd (htail.null_iff.mpr rfl) hnull
    | tail _ ht => exact .rest (h.mirror hp hvars htail ht)
  | _, _, _, _, _, _, _, _, _, _, _, .item hv hnext h hmore, hp, hvars, hitems, htail, ht => by
    cases hitems with
    | cons hw hitems =>
      cases ht with
      | item _ hk ht hts =>
        rw [if_neg (by simp), ellipsesOf_eq_zero (head?_not_ellipsis hitems hnext)] at hk
        subst hk
        exact .item (h.mirror hp.1 (fun x hx => hvars x (List.mem_append_left _ hx)) hw ht)
          (hmore.mirror hp.2 (fun x hx => hvars x (List.mem_append_right _ hx)) hitems htail hts)
  | _, _, _, _, _, _, _, _, _, _, _, .repeated hv hdots h hmore, hp, hvars, hitems, htail, ht => by
    cases hitems with
    | cons hw hitems =>
      cases hitems with
      | cons hdots' hitems =>
        cases ht with
        | item _ hk ht hts =>
          have hfront : ellipsesOf (_ :: _) = 1 :=
            ellipsesOf_eq_one ((hdots'.isNamed _).trans hdots)
              (ellipsesOf_eq_zero (head?_not_ellipsis hitems hmore.head_not_ellipsis))
          rw [if_neg (by simp), hfront] at hk
          subst hk
          have hhead := h.mirror hp.2.1 (fun x hx => hvars x (List.mem_append_left _ hx)) hw ht
          exact .repeated hhead hp.1 (hmore.mirror hp.2.2
            (fun x hx => hvars x (List.mem_append_right _ hx)) hitems htail hts)

end

/-- The value is read as the items of a rule's pattern behind the keyword, and as a template. -/
theorem PatternItemsOf.mirrorRest {n k : Nat} {v w tail : Value} {items : List Value}
    {seen seen' : Depths} {ps : PatternSeq} {t : Template}
    (h : PatternItemsOf c n tail false items seen ps seen') (hchain : c.store.Chain v items tail)
    (hps : ps.Reversible) (hvars : ∀ x ∈ ps.vars, ∃ m, depths.lookup x = some m)
    (halike : c.store.Alike v w) (ht : TemplateOf c depths false k w t) : MirrorRest ps t := by
  have hlist : PatternOf c n v seen (.list ps) seen' → MirrorRest ps t := by
    intro hv
    cases hv.mirror hps hvars halike ht with
    | null => exact .null
    | list h => exact .list h
  cases hchain with
  | tail =>
    cases h with
    | done => exact hlist .null
    | rest _ h => exact .rest (h.mirror hps hvars halike ht)
  | pair hchain => exact hlist (.list (.pair hchain) h)

end SyntaxRules

end HygienicScheme
