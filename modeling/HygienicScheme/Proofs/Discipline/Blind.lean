import HygienicScheme.Proofs.Discipline.Evaluation
import HygienicScheme.Proofs.Discipline.Expansion
import Mathlib.Logic.Function.Iterate

/-!
# Disciplines that are blind to forms

Where the same is said of a value whether it stands in code or in data, expansion and evaluation
keep it together, and a program may have anything expanded and taken for a template.
-/
namespace HygienicScheme

structure FormlessDiscipline extends EvaluationDiscipline, ExpansionDiscipline where
  body : ∀ {s} a, Holds s → Data s (.closure a) → ∀ v ∈ (s.closureAt a).body, Data s v
  scope : ∀ {s} a, Holds s → Scope (s.closureAt a).env := by exact fun _ _ => trivial
  closure : ∀ {s c}, Holds s → Scope c.env → c.WellFormed → (∀ v ∈ c.body, Data s v) →
    let t := { s with closures := s.closures.push c }
    (Holds t ∧ Leads s t) ∧ Data t (.closure s.closures.size)
  named : ∀ {s x}, Data s (.symbol x) → Variable x := by exact fun _ => trivial

structure Blind extends FormlessDiscipline where
  everywhere : ∀ env, Scope env := by exact fun _ => trivial
  settle : ∀ {s v thunk} a, Holds s → s.promiseAt a = .delayed thunk → Data s v →
    let t := { s with promises := s.promises.setIfInBounds a (.forced v) }
    Holds t ∧ Leads s t

namespace FormlessDiscipline

open Discipline

def regimen (D : FormlessDiscipline) (Settleable : Store → Address → Prop)
    (settle : ∀ {s v thunk} a, D.Holds s → Settleable s a → s.promiseAt a = .delayed thunk →
      D.Data s v →
      let t := { s with promises := s.promises.setIfInBounds a (.forced v) }
      D.Holds t ∧ D.Leads s t) : Regimen where
  toEvaluationDiscipline := D.toEvaluationDiscipline
  Form _ := D.Data
  Expandable _ _ := True
  Listable _ _ := True
  Settleable := Settleable
  form_leads := D.data_leads
  form_data hv := hv
  code_atom hv _ _ := hv
  quoted hv _ := hv
  quasiquoted hs hv _ hlist := properList hs (cdr hs hv) hlist _ (by simp)
  slots hs hv _ _ := ⟨car hs hv, cdr hs hv⟩
  operands hs hv hlist := properList hs hv hlist
  template_atom hv _ _ := hv
  template_operand hs hv hform := by
    obtain ⟨_, _, _, _, hchain⟩ := Store.quasiForm?_chain hform
    exact (chain hs hv hchain).1 _ (by simp)
  template_slots hs hv _ := ⟨car hs hv, cdr hs hv⟩
  template_list hs hv _ := holds_listWithTail hs (item hs hv) null
  settle := settle
  body := D.body
  scope := D.scope
  closure := D.closure
  named := D.named
  header hs hv hcar := D.named (hcar ▸ car hs hv)
  expanded _ henv hs hv _ :=
    ExpansionDiscipline.keeps_expandToplevel (D := D.toExpansionDiscipline) henv hs hv

end FormlessDiscipline

namespace Blind

def regimen (B : Blind) : Regimen :=
  B.toFormlessDiscipline.regimen (fun _ _ => True) fun a hs _ => B.settle a hs

theorem allows (B : Blind) (m : Machine) : B.regimen.Allows m :=
  ⟨fun _ => trivial, fun _ => trivial, fun _ => trivial⟩

theorem iterate (B : Blind) {c : Context} {m : Machine} (hm : m.Kept B.regimen) (n : Nat) :
    ((Machine.step c)^[n] m).Kept B.regimen ∧
      B.Leads m.store ((Machine.step c)^[n] m).store := by
  induction n generalizing m with
  | zero => exact ⟨hm, B.refl _⟩
  | succ n ih =>
    have hstep := Regimen.step (c := c) (B.everywhere c.global) hm (B.allows m)
    exact ⟨(ih hstep.kept).1, B.trans hstep.leads (ih hstep.kept).2⟩

end Blind

end HygienicScheme
