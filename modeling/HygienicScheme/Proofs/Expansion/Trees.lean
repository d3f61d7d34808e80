import HygienicScheme.Proofs.Errors.Expansion
import HygienicScheme.Proofs.Stamps.Circles
import HygienicScheme.Proofs.SyntaxRules.Accepting

/-!
# Expanding acyclic forms

Matching takes a form apart and a template puts the parts together in new pairs, so an acyclic form
stays acyclic through every use. Neither a use nor the definition of a transformer walks around a
circle then, and settling the stamps succeeds.
-/
namespace HygienicScheme

variable {s t : Store} {v w tail : Value} {items : List Value} {env : Environment}

namespace Action

def Ends {α : Type} (x : Action α) (s : Store) : Prop :=
  ∀ e t, x s = .error e t → e.isFatal = false

namespace Ends

variable {α β : Type}

theorem of_failsWith {x : Action α} {E : Error → Prop} (h : x.FailsWith E)
    (hE : ∀ e, E e → e.isFatal = false) : x.Ends s := fun e t he => hE e (h s e t he)

theorem throw {e : Error} (he : e.isFatal = false) : (throw e : Action α).Ends s := by
  rintro _ _ ⟨⟩
  exact he

theorem pure (a : α) : (Pure.pure a : Action α).Ends s := nofun

theorem lift {b : Build α} : (liftM b : Action α).Ends s := nofun

theorem change {f : Store → Store} : (Action.change f).Ends s := nofun

theorem of_eq {x y : Action α} (hxy : x s = y s) (h : y.Ends s) : x.Ends s := by
  unfold Ends
  rwa [hxy]

theorem bind {x : Action α} {f : α → Action β} (hx : x.Ends s)
    (hf : ∀ a t, x s = .ok a t → (f a).Ends t) : (x >>= f).Ends s := by
  intro e u hu
  cases hxs : x s with
  | ok a t =>
    rw [bind_ok hxs] at hu
    exact hf a t hxs e u hu
  | error e' t =>
    rw [bind_error hxs] at hu
    cases hu
    exact hx e u hxs

/-- A row of actions ends if each of them does, from the store that those before it have left. -/
theorem mapM {f : Value → Action β} {vs : List Value}
    (h : ∀ before v after ws t, vs = before ++ v :: after → before.mapM f s = .ok ws t →
      (f v).Ends t) : (vs.mapM f).Ends s := by
  induction vs generalizing s with
  | nil => exact pure []
  | cons v more ih =>
    rw [List.mapM_cons]
    refine (h [] v more [] s rfl rfl).bind fun w t hw => Ends.bind (ih ?_) fun _ _ _ => pure _
    intro before v' after ws u hmore hbefore
    refine h (v :: before) v' after (w :: ws) u (by rw [hmore, List.cons_append]) ?_
    rw [List.mapM_cons, bind_ok hw, bind_ok hbefore]
    rfl

end Ends

end Action

namespace Store

def Tree.discipline : ExpansionDiscipline where
  Holds := Compiled
  Data := Tree
  Leads := Grows
  refl := .refl
  trans := .trans
  data_leads hst hv := hv.grow hst
  constant hv _ _ _ := (form_constant hv).tree
  name text := .leaf (by simp [Value.name]) (by simp [Value.name])
  slot _ hv hw := hv.slot hw
  cons hs hcar hcdr := ⟨⟨hs, grows_push_pair _ _⟩, tree_push_pair hcar hcdr⟩
  vector hs hitems := ⟨⟨hs, grows_push_vector _ _⟩, tree_push_vector hitems⟩
  symbol _ _ := .leaf (by simp) (by simp)
  use := @ExpansionDiscipline.use Form.discipline
  phase := @ExpansionDiscipline.phase Form.discipline
  install env _ hs _ hm _ := ⟨hs.install env (SyntaxRules.define_ok hm.compiled).2.isConstant,
    .of_cells_eq rfl rfl⟩
  constants hs hm v hv := (form_constant (hs _ _ hm v hv)).tree

end Store

namespace Store.Tree

open Expansion

variable {room fuel level : Nat}

theorem keeps_defineSyntax (hs : s.Compiled) (hitems : ∀ v ∈ items, s.Tree v) :
    Tree.discipline.Keeps (defineSyntax env items tail) s fun t _ => t.pairs = s.pairs :=
  SyntaxDiscipline.keeps_defineSyntax trivial hs hitems fun _ _ _ _ => trivial

theorem keeps_expand (hs : s.Compiled) (hv : s.Tree v) :
    Tree.discipline.Keeps (expand env room v) s Tree :=
  (ExpansionDiscipline.expands trivial room).1 hs hv

theorem keeps_expandTemplate (hs : s.Compiled) (hv : s.Tree v) :
    Tree.discipline.Keeps (expandTemplate env room fuel level v) s Tree :=
  (ExpansionDiscipline.expands trivial room).2 fuel level hs hv

end Store.Tree

namespace Expansion

open Store (Tree)

theorem use_ends (m : Transformer) (v : Value) : (transcribe env m v).Ends s :=
  .of_failsWith (Ordinary.use m v) fun e he => by cases e <;> first | rfl | cases he

theorem malformed_ends {α : Type} (keyword : String) (problem : FormProblem) :
    (Action.malformed keyword problem : Action α).Ends s := .throw rfl

theorem defineSyntax_ends (hitems : ∀ v ∈ items, s.Tree v) :
    (defineSyntax env items tail).Ends s := by
  unfold defineSyntax
  split
  · rename_i name spec
    split
    · exact malformed_ends _ _
    · have hdecides := @SyntaxRules.define_decides s name.name spec (hitems spec (by simp))
      refine .of_eq (Action.inspect_bind ..) ?_
      cases hdefine : SyntaxRules.define s name.name spec with
      | ok m => exact .change
      | error e =>
        rw [hdefine] at hdecides
        obtain ⟨⟨problem, rfl⟩, -⟩ := hdecides
        exact .throw rfl
  · exact .of_eq (Action.inspect_bind ..) (malformed_ends _ _)
  · exact malformed_ends _ _

theorem installAll_ends (keyword : String) (hs : s.Compiled) (hitems : ∀ v ∈ items, s.Tree v) :
    (installAll env keyword items).Ends s := by
  induction items generalizing s with
  | nil => exact .pure _
  | cons v more ih =>
    obtain ⟨hv, hmore⟩ := List.forall_mem_cons.mp hitems
    refine .of_eq (Action.inspect_bind ..) ?_
    cases hlist : s.properList? v with
    | none => exact .of_eq (Action.inspect_bind ..) (malformed_ends _ _)
    | some parts =>
      have hparts : ∀ w ∈ parts, s.Tree w := hv.items (Store.properList?_eq_some.mp hlist)
      refine (defineSyntax_ends hparts).bind fun _ t ht => ?_
      obtain ⟨⟨hcompiled, hg⟩, -⟩ := (Tree.keeps_defineSyntax hs hparts).of_ok ht
      exact ih hcompiled fun w hw => (hmore w hw).grow hg

theorem letSyntax_ends (keyword : String) (hs : s.Compiled) (hitems : ∀ v ∈ items, s.Tree v) :
    (letSyntax env keyword items tail).Ends s := by
  unfold letSyntax
  split
  · exact malformed_ends _ _
  · rename_i bindings body
    split
    · exact malformed_ends _ _
    · refine .of_eq (Action.inspect_bind ..) ?_
      cases hlist : s.properList? bindings with
      | none => exact malformed_ends _ _
      | some parts =>
        have hparts := (hitems bindings (by simp)).items (Store.properList?_eq_some.mp hlist)
        exact (installAll_ends keyword hs hparts).bind fun _ _ _ =>
          Action.Ends.lift.bind fun _ _ _ => .lift

end Expansion

theorem Renaming.renameIntroduced_tree (hv : s.Tree v) :
    ∃ w t, renameIntroduced v s = .ok w t := by
  have hunfolds : s.Unfolds v := hv.within.partsWithin.unfolds
  have hreached : ∀ w, Relation.ReflTransGen (CodePart s) v w → s.Tree w := by
    intro w hw
    induction hw with
    | refl => exact hv
    | tail _ hpart ih => exact ih.part hpart.part
  refine renameIntroduced_ends hv.inside hunfolds fun w hw items tail t hchain hform => ?_
  obtain ⟨head, rfl⟩ := Form.of_quasiquote hform
  exact (hreached w hw).items hchain t (by simp)

end HygienicScheme
