import HygienicScheme.Proofs.Discipline.Expansion
import HygienicScheme.Proofs.Store.Growth
import Mathlib.Data.List.Forall2

/-!
# What expansion does to a store

Expansion builds pairs and vectors and installs transformers. It binds nothing, and it touches
neither closures nor promises, whether it succeeds or fails.
-/
namespace HygienicScheme

structure Store.Expands (s t : Store) : Prop extends s.Grows t where
  frames_size : t.frames.size = s.frames.size
  bindings_eq : ∀ f, (t.frameAt f).bindings = (s.frameAt f).bindings
  transformers_eq : ∀ f, ∃ new, (t.frameAt f).transformers = new ++ (s.frameAt f).transformers ∧
    ∀ m ∈ new, m.2.Atomic
  closures_eq : t.closures = s.closures
  promises_eq : t.promises = s.promises

namespace Store.Expands

variable {s t u : Store}

theorem refl (s : Store) : s.Expands s where
  toGrows := .refl s
  frames_size := rfl
  bindings_eq _ := rfl
  transformers_eq _ := ⟨[], rfl, by simp⟩
  closures_eq := rfl
  promises_eq := rfl

theorem trans (h : s.Expands t) (k : t.Expands u) : s.Expands u where
  toGrows := h.toGrows.trans k.toGrows
  frames_size := k.frames_size.trans h.frames_size
  bindings_eq f := (k.bindings_eq f).trans (h.bindings_eq f)
  transformers_eq f := by
    obtain ⟨old, hold, hatomic⟩ := h.transformers_eq f
    obtain ⟨new, hnew, hatomic'⟩ := k.transformers_eq f
    refine ⟨new ++ old, by rw [hnew, hold, List.append_assoc], fun m hm => ?_⟩
    rcases List.mem_append.mp hm with hm | hm
    · exact hatomic' m hm
    · exact hatomic m hm
  closures_eq := k.closures_eq.trans h.closures_eq
  promises_eq := k.promises_eq.trans h.promises_eq

theorem of_grows (h : s.Grows t) (hframes : t.frames = s.frames)
    (hclosures : t.closures = s.closures) (hpromises : t.promises = s.promises) : s.Expands t where
  toGrows := h
  frames_size := by rw [hframes]
  bindings_eq f := by rw [frameAt, frameAt, hframes]
  transformers_eq f := ⟨[], by rw [frameAt, frameAt, hframes]; rfl, by simp⟩
  closures_eq := hclosures
  promises_eq := hpromises

theorem transformers_suffix (h : s.Expands t) (f : Address) :
    (s.frameAt f).transformers <:+ (t.frameAt f).transformers := by
  obtain ⟨new, hnew, -⟩ := h.transformers_eq f
  exact ⟨new, hnew.symm⟩

theorem transformer?_eq_none {name : String} {chain : List Address} (h : s.Expands t)
    (ht : t.transformer? name chain = none) : s.transformer? name chain = none := by
  rw [Store.transformer?_eq_none] at ht ⊢
  intro f hf
  obtain ⟨new, hnew, -⟩ := h.transformers_eq f
  have hnone := ht f hf
  rw [hnew, List.lookup_append, Option.or_eq_none_iff] at hnone
  exact hnone.2

end Store.Expands

theorem Store.expands_install (s : Store) (env : Environment) {t : Transformer} (ht : t.Atomic) :
    s.Expands (s.install env t) where
  toGrows := .of_cells_eq rfl rfl
  frames_size := by simp [install, modifyFrame]
  bindings_eq f := by
    rw [install, frameAt_modifyFrame]
    split <;> rfl
  transformers_eq f := by
    rw [install, frameAt_modifyFrame]
    split
    · exact ⟨[(t.name, t)], rfl, by simpa using ht⟩
    · exact ⟨[], rfl, by simp⟩
  closures_eq := rfl
  promises_eq := rfl

namespace Build

def Expanding {α : Type} (b : Build α) : Prop := ∀ s : Store, s.Expands (b s).2

theorem Expanding.bind {α β : Type} {b : Build α} {f : α → Build β} (hb : b.Expanding)
    (hf : ∀ a, (f a).Expanding) : (b >>= f).Expanding :=
  fun s => (hb s).trans (hf _ _)

theorem expanding_cons (car cdr : Value) : (cons car cdr).Expanding :=
  fun s => .of_grows (s.grows_push_pair _) rfl rfl rfl

theorem expanding_vector (items : Array Value) : (vector items).Expanding :=
  fun s => .of_grows (s.grows_push_vector _) rfl rfl rfl

theorem expanding_listWithTail (items : List Value) (tail : Value) :
    (listWithTail items tail).Expanding := by
  suffices h : ∀ (reversed : List Value) tail, (consReversed reversed tail).Expanding from
    h items.reverse tail
  intro reversed
  induction reversed with
  | nil => exact fun tail s => .refl s
  | cons item more ih => exact fun tail => (expanding_cons item tail).bind fun v => ih v

theorem expanding_list (items : List Value) : (list items).Expanding :=
  expanding_listWithTail items .null

end Build

namespace Action

def Expanding {α : Type} (x : Action α) : Prop := ∀ s : Store, s.Expands (after (x s))

namespace Expanding

variable {α β : Type}

theorem of_ok {x : Action α} (h : x.Expanding) {s t : Store} {a : α} (hx : x s = .ok a t) :
    s.Expands t := by
  have hs := h s
  rwa [hx] at hs

theorem pure (a : α) : (Pure.pure a : Action α).Expanding := fun s => .refl s

theorem lift {b : Build α} (h : b.Expanding) : (liftM b : Action α).Expanding := h

theorem bind {x : Action α} {f : α → Action β} (hx : x.Expanding) (hf : ∀ a, (f a).Expanding) :
    (x >>= f).Expanding := by
  intro s
  have h := hx s
  change s.Expands (after (EStateM.bind x f s))
  unfold EStateM.bind
  cases hxs : x s with
  | ok a t =>
    rw [hxs] at h
    exact h.trans (hf a t)
  | error e t =>
    rw [hxs] at h
    exact h

theorem mapM {f : α → Action β} (hf : ∀ a, (f a).Expanding) (as : List α) :
    (as.mapM f).Expanding := by
  induction as with
  | nil => exact pure []
  | cons a as ih =>
    rw [List.mapM_cons]
    exact (hf a).bind fun b => ih.bind fun bs => pure (b :: bs)

/-- Each result is right in the store at the end, if it was when it was made, from what those before
it had left, and stays so. -/
theorem mapM_after {f : α → Action β} {Q : Store → α → β → Prop} (hf : ∀ a, (f a).Expanding)
    (hQ : ∀ {s t a b}, s.Expands t → Q s a b → Q t a b) {as : List α} {bs : List β} {s t : Store}
    (h : as.mapM f s = .ok bs t)
    (hok : ∀ before a after done s' b t', as = before ++ a :: after →
      before.mapM f s = .ok done s' → f a s' = .ok b t' → t'.Expands t → Q t' a b) :
    List.Forall₂ (Q t) as bs := by
  induction as generalizing s bs with
  | nil =>
    cases h
    exact .nil
  | cons a as ih =>
    rw [List.mapM_cons] at h
    obtain ⟨b, u, hb, h⟩ := ok_of_bind h
    obtain ⟨more, u', hmore, h⟩ := ok_of_bind h
    cases h
    have hut := (mapM hf as).of_ok hmore
    refine .cons (hQ hut (hok [] a as [] s b u rfl rfl hb hut)) (ih hmore ?_)
    intro before a' after done s' b' t' has hdone
    refine hok (a :: before) a' after (b :: done) s' b' t' (by rw [has]; rfl) ?_
    rw [List.mapM_cons, bind_ok hb, bind_ok hdone]
    rfl

theorem mapM_ok {f : α → Action β} {Q : Store → α → β → Prop} (hf : ∀ a, (f a).Expanding)
    (hQ : ∀ {s t a b}, s.Expands t → Q s a b → Q t a b) {as : List α} {bs : List β} {s t : Store}
    (h : as.mapM f s = .ok bs t)
    (hok : ∀ a ∈ as, ∀ s' t' b, s.Expands s' → f a s' = .ok b t' → Q t' a b) :
    List.Forall₂ (Q t) as bs := by
  refine mapM_after (Q := Q) hf hQ h fun before a after done s' b t' has hdone hb _ => ?_
  exact hok a (by simp [has]) s' t' b ((mapM hf before).of_ok hdone) hb

theorem mapM_each {f : α → Action β} (hf : ∀ a, (f a).Expanding) {as : List α} {bs : List β}
    {s t : Store} (h : as.mapM f s = .ok bs t) :
    ∀ a ∈ as, ∃ s' b t', s.Expands s' ∧ f a s' = .ok b t' := by
  have hall := mapM_ok (Q := fun _ a _ => ∃ s' b t', s.Expands s' ∧ f a s' = .ok b t') hf
    (fun _ h => h) h fun a _ s' t' b hs' hb => ⟨s', b, t', hs', hb⟩
  clear h
  induction hall with
  | nil => simp
  | cons ha _ ih => exact List.forall_mem_cons.mpr ⟨ha, ih⟩

end Expanding

end Action

def Store.Expands.discipline : ExpansionDiscipline where
  Holds _ := True
  Data _ _ := True
  Leads := Store.Expands
  refl := .refl
  trans := .trans
  data_leads _ _ := trivial
  constant _ _ _ _ := trivial
  name _ := trivial
  slot _ _ _ := trivial
  cons _ _ _ := ⟨⟨trivial, .of_grows (Store.grows_push_pair _ _) rfl rfl rfl⟩, trivial⟩
  vector _ _ := ⟨⟨trivial, .of_grows (Store.grows_push_vector _ _) rfl rfl rfl⟩, trivial⟩
  symbol _ _ := trivial
  use _ := ⟨⟨trivial, .of_grows (.of_cells_eq rfl rfl) rfl rfl rfl⟩, trivial⟩
  phase _ := ⟨trivial, .of_grows (.of_cells_eq rfl rfl) rfl rfl rfl⟩
  install env _ _ _ hm _ :=
    ⟨trivial, Store.expands_install _ env (SyntaxRules.define_ok hm.compiled).2.templates⟩
  constants _ _ _ _ := trivial

theorem Action.Expanding.of_keeps {α : Type} {x : Action α} {Q : Store → α → Prop}
    (h : ∀ s, Store.Expands.discipline.Keeps x s Q) : x.Expanding := fun s => (h s).1.2

open Action.Expanding SyntaxDiscipline ExpansionDiscipline

theorem Renaming.expanding_strip (depth : Nat) (v : Value) : (strip depth v).Expanding :=
  of_keeps fun _ => keeps_strip depth trivial trivial

theorem Renaming.expanding_code (bound : List Symbol) (depth : Nat) (v : Value) :
    (code bound depth v).Expanding :=
  of_keeps fun _ => (keeps_code_template bound depth).1 trivial trivial

theorem Renaming.expanding_template (bound : List Symbol) (depth level : Nat) (v : Value) :
    (template bound depth level v).Expanding :=
  of_keeps fun _ => (keeps_code_template bound depth).2 level trivial trivial

theorem Renaming.expanding_renameIntroduced (v : Value) : (renameIntroduced v).Expanding :=
  of_keeps fun _ => keeps_renameIntroduced trivial trivial

namespace Expansion

variable (env : Environment)

theorem expanding_installAll (keyword : String) (bindings : List Value) :
    (installAll env keyword bindings).Expanding :=
  of_keeps fun _ => keeps_installAll trivial keyword trivial (fun _ _ => trivial)
    fun _ _ _ _ _ _ _ => trivial

theorem expanding (room : Nat) : (∀ form, (expand env room form).Expanding) ∧
    ∀ fuel level v, (expandTemplate env room fuel level v).Expanding :=
  ⟨fun _ => of_keeps fun _ => (expands trivial room).1 trivial trivial,
    fun fuel level _ => of_keeps fun _ => (expands trivial room).2 fuel level trivial trivial⟩

theorem expanding_expandToplevel (form : Value) : (expandToplevel env form).Expanding :=
  of_keeps fun _ => keeps_expandToplevel trivial trivial trivial

end Expansion

end HygienicScheme
