import HygienicScheme.Proofs.Discipline.Evaluation
import HygienicScheme.Proofs.Expansion.Equations
import HygienicScheme.Proofs.Quasiquote.Outlines

/-!
# Code positions

A list of a form is code unless it is quoted or quasiquoted data, a parameter list, the header of a
definition, an item of a vector or a part of the definition of a transformer. Of a quasiquoted
template only what is unquoted at the outermost level is code. The items of a list in a code
position are in code positions themselves, but the tail of an improper list is not.
-/
namespace HygienicScheme

open Renaming (Form)

def codeItems (items : List Value) : List Value :=
  match Renaming.Head.ofItems items with
  | .lambda | .define => items.drop 2
  | .other => items
  | .quote | .quasiquote | .defineSyntax => []

theorem mem_of_codeItems {v : Value} {items : List Value} (h : v ∈ codeItems items) :
    v ∈ items := by
  unfold codeItems at h
  split at h
  · exact List.mem_of_mem_drop h
  · exact List.mem_of_mem_drop h
  · exact h
  · cases h
  · cases h
  · cases h

theorem codeItems_binding {items : List Value}
    (h : Renaming.Head.ofItems items = .lambda ∨ Renaming.Head.ofItems items = .define) :
    codeItems items = items.drop 2 := by
  unfold codeItems
  rcases h with h | h <;> rw [h]

theorem QuasiKeyword.of_symbol {x : Symbol} {keyword : QuasiKeyword}
    (h : ofSymbol? x = some keyword) : x.isStamped = false ∧ x.name = keyword.name := by
  unfold ofSymbol? at h
  split_ifs at h <;> cases h <;> simp_all [QuasiKeyword.name]

namespace Expansion

variable {env : Environment} {s : Store} {items : List Value} {head v : Value}

/-! ## Where the expander goes -/

theorem headOf_binding (h : headOf env items s = .binding) :
    (Renaming.Head.ofItems items = .lambda ∨ Renaming.Head.ofItems items = .define) ∧
      2 ≤ items.length := by
  obtain ⟨x, more, rfl, hx, hcore⟩ := headOf_core h (by simp) (by simp)
  unfold coreHead at hcore
  split_ifs at hcore with _ _ hname hlength
  have hname : x.name = "lambda" ∨ x.name = "define" := by simpa using hname
  refine ⟨?_, hlength⟩
  rcases hname with hname | hname <;> simp [Renaming.Head.ofItems, hx, hname]

theorem form_of_quasiquote (h : headOf env [head, v] s = .quasiquote) :
    Form.of [head, v] .null = .quasiquote v := by
  obtain ⟨x, more, hitems, hx, hcore⟩ := headOf_core h (by simp) (by simp)
  cases hitems
  unfold coreHead at hcore
  split_ifs at hcore
  simp_all [Form.of, Renaming.Head.ofItems]

/-- Where the expander sees no special form it goes to all items, those apart that it would leave
as they are. -/
theorem codeItems_other (h : headOf env items s = .other) :
    ∀ w ∈ items, w ∈ codeItems items ∨ ∀ a, w ≠ .pair a := by
  intro w hw
  unfold headOf at h
  split at h
  · rename_i x more
    by_cases hstamped : x.isStamped
    · simp_all [codeItems, Renaming.Head.ofItems]
    split at h
    · cases h
    · rw [if_neg hstamped] at h
      unfold coreHead at h
      split_ifs at h with _ _ hbinding htwo
      · obtain rfl : more = [] := by simpa using htwo
        exact .inr (by simp_all)
      · left
        simp_all [codeItems, Renaming.Head.ofItems]
  · rename_i hhead
    cases items with
    | nil => cases hw
    | cons head more =>
      left
      unfold codeItems Renaming.Head.ofItems
      split
      all_goals simp_all

end Expansion

/-- Every symbol that is the head of a list in a code position has the property. -/
inductive Store.Headed (s : Store) (Q : Symbol → Prop) : Role → Value → Prop
  | atom {v : Value} (hv : ∀ a, v ≠ .pair a) : Headed s Q .code v
  | list {a : Address} {items : List Value} {tail : Value} (hchain : s.Chain (.pair a) items tail)
      (hhead : ∀ x more, items = .symbol x :: more → Q x)
      (hcode : ∀ w ∈ codeItems items, Headed s Q .code w)
      (htemplate : ∀ w, Form.of items tail = .quasiquote w → Headed s Q (.template 1) w) :
      Headed s Q .code (.pair a)
  | leaf {v : Value} {level : Nat} (hp : ∀ a, v ≠ .pair a) (hv : ∀ a, v ≠ .vector a) :
      Headed s Q (.template level) v
  | form {v operand : Value} {level : Nat} {keyword : QuasiKeyword}
      (hform : s.quasiForm? v = some (keyword, operand))
      (hoperand : Headed s Q (.within keyword level) operand) : Headed s Q (.template level) v
  | pair {a : Address} {level : Nat} (hform : s.quasiForm? (.pair a) = none)
      (hcar : Headed s Q (.template level) (s.pairAt a).car)
      (hcdr : Headed s Q (.template level) (s.pairAt a).cdr) :
      Headed s Q (.template level) (.pair a)
  | vector {a : Address} {level : Nat}
      (hitems : ∀ v ∈ (s.vectorAt a).toList, Headed s Q (.template level) v) :
      Headed s Q (.template level) (.vector a)

variable {s t : Store} {Q : Symbol → Prop} {v : Value} {role : Role}

namespace Store.Headed

theorem grow (h : s.Headed Q role v) (hv : s.Tree v) (hg : s.Grows t) : t.Headed Q role v := by
  induction h with
  | atom hp => exact .atom hp
  | list hchain hhead _ _ hcode htemplate =>
    have hitems := (hv.inside.chain hchain).1
    have htrees := hv.items hchain
    refine .list ((hv.inside.chain_grows hg).mpr hchain) hhead
      (fun w hw => hcode w hw (htrees w (mem_of_codeItems hw))) fun w hw => ?_
    obtain ⟨head, rfl⟩ := Form.of_quasiquote hw
    exact htemplate w hw (htrees w (by simp))
  | leaf hp hvector => exact .leaf hp hvector
  | form hform _ hoperand =>
    exact .form ((hg.quasiForm?_eq hv).trans hform) (hoperand (hv.operand hform))
  | pair hform _ _ hcar hcdr =>
    refine .pair ((hg.quasiForm?_eq hv).trans hform) ?_ ?_ <;> rw [hg.pairAt_eq hv.pair_lt]
    · exact hcar hv.car
    · exact hcdr hv.cdr
  | vector _ hitems =>
    refine .vector ?_
    rw [hg.vectorAt_eq hv.vector_lt]
    exact fun w hw => hitems w hw (hv.item hw)

end Store.Headed

end HygienicScheme
