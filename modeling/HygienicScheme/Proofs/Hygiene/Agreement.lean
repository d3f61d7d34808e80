import HygienicScheme.Proofs.Expansion.Effects
import HygienicScheme.Proofs.Hygiene.Renamed

/-!
# Two runs side by side

`Same R` relates the runs of two actions that both succeed with results in `R`, or both fail. It is
closed under sequencing: the second actions start from stores that lie above the first ones, have
their frames, and would stamp alike if the first ones did.

`Agree` is the same law for expansion, where it holds up to two things that the left run may do. It
may install a transformer, and it may fail because the definition of one is rejected: a name that
the left form gives to a definition's keyword need not be what the right form calls it.
-/
namespace HygienicScheme

structure Parallel (s t s' t' : Store) : Prop where
  left : s.Grows s'
  right : t.Grows t'
  frames_left : s'.frames = s.frames
  frames_right : t'.frames = t.frames
  stamps : s.phase = t.phase ∧ s.uses = t.uses → s'.phase = t'.phase ∧ s'.uses = t'.uses

namespace Parallel

variable {s t s' t' s'' t'' : Store}

theorem refl (s t : Store) : Parallel s t s t := ⟨.refl s, .refl t, rfl, rfl, id⟩

theorem trans (h : Parallel s t s' t') (k : Parallel s' t' s'' t'') : Parallel s t s'' t'' where
  left := h.left.trans k.left
  right := h.right.trans k.right
  frames_left := k.frames_left.trans h.frames_left
  frames_right := k.frames_right.trans h.frames_right
  stamps := k.stamps ∘ h.stamps

end Parallel

abbrev Relation (α β : Type) := Store → Store → α → β → Prop

def Relation.Stable {α β : Type} (R : Relation α β) : Prop :=
  ∀ ⦃s t s' t' a b⦄, s.Grows s' → t.Grows t' → R s t a b → R s' t' a b

def Relation.Each {α β : Type} (R : Relation α β) : Relation (List α) (List β) :=
  fun s t => List.Forall₂ (R s t)

theorem Relation.Stable.each {α β : Type} {R : Relation α β} (h : R.Stable) : R.Each.Stable :=
  fun _ _ _ _ _ _ hs ht hab => hab.imp fun _ _ => h hs ht

theorem Renamed.stable (π : Equiv.Perm String) : Relation.Stable (Renamed π) :=
  fun _ _ _ _ _ _ hs ht h => h.grow hs ht

inductive Rows {α β γ : Type} (R : α → β → γ → Prop) : List α → List β → List γ → Prop
  | nil : Rows R [] [] []
  | cons {a : α} {b : β} {c : γ} {as : List α} {bs : List β} {cs : List γ} (h : R a b c)
      (hmore : Rows R as bs cs) : Rows R (a :: as) (b :: bs) (c :: cs)

theorem Rows.forall₂ {α β γ : Type} {R : β → γ → Prop} {as : List α} {bs : List β} {cs : List γ}
    (h : Rows (fun _ => R) as bs cs) : List.Forall₂ R bs cs := by
  induction h with
  | nil => exact .nil
  | cons h _ ih => exact .cons h ih

theorem Rows.imp {α β γ : Type} {R R' : α → β → γ → Prop} {as : List α} {bs : List β}
    {cs : List γ} (h : Rows R as bs cs) (hR : ∀ a b c, R a b c → R' a b c) : Rows R' as bs cs := by
  induction h with
  | nil => exact .nil
  | cons h _ ih => exact .cons (hR _ _ _ h) ih

inductive Same {α β : Type} (R : Relation α β) (s t : Store) :
    EStateM.Result Error Store α → EStateM.Result Error Store β → Prop
  | ok {s' t' : Store} {a : α} {b : β} (h : Parallel s t s' t') (hab : R s' t' a b) :
      Same R s t (.ok a s') (.ok b t')
  | error {s' t' : Store} {e e' : Error} : Same R s t (.error e s') (.error e' t')

namespace Same

variable {α β α' β' : Type} {R : Relation α β} {R' : Relation α' β'} {s t s' t' : Store}

theorem pure {a : α} {b : β} (h : R s t a b) :
    Same R s t ((Pure.pure a : Action α) s) ((Pure.pure b : Action β) t) :=
  .ok (.refl s t) h

theorem of_ok {a : α} {r' : EStateM.Result Error Store β} (h : Same R s t (.ok a s') r') :
    ∃ b t', r' = .ok b t' ∧ Parallel s t s' t' ∧ R s' t' a b := by
  cases h with
  | ok h hab => exact ⟨_, _, rfl, h, hab⟩

theorem of_error {e : Error} {r' : EStateM.Result Error Store β}
    (h : Same R s t (.error e s') r') : ∃ e' t', r' = .error e' t' := by
  cases h
  exact ⟨_, _, rfl⟩

theorem follow (h : Parallel s t s' t') {r : EStateM.Result Error Store α}
    {r' : EStateM.Result Error Store β} (hr : Same R s' t' r r') : Same R s t r r' := by
  cases hr with
  | ok k hab => exact ok (h.trans k) hab
  | error => exact error

theorem bind {x : Action α} {y : Action β} {f : α → Action α'} {g : β → Action β'}
    (hxy : Same R s t (x s) (y t))
    (hfg : ∀ {s' t' a b}, Parallel s t s' t' → R s' t' a b → Same R' s' t' (f a s') (g b t')) :
    Same R' s t ((x >>= f) s) ((y >>= g) t) := by
  change Same R' s t (EStateM.bind x f s) (EStateM.bind y g t)
  unfold EStateM.bind
  cases hx : x s with
  | ok a s' =>
    rw [hx] at hxy
    cases hy : y t with
    | ok b t' =>
      rw [hy] at hxy
      cases hxy with
      | ok h hab => exact (hfg h hab).follow h
    | error e t' =>
      rw [hy] at hxy
      cases hxy
  | error e s' =>
    rw [hx] at hxy
    cases hy : y t with
    | ok b t' =>
      rw [hy] at hxy
      cases hxy
    | error e' t' => exact error

theorem mono {R' : Relation α β} {r : EStateM.Result Error Store α}
    {r' : EStateM.Result Error Store β} (h : Same R s t r r')
    (hR : ∀ {s' t' a b}, Parallel s t s' t' → R s' t' a b → R' s' t' a b) : Same R' s t r r' := by
  cases h with
  | ok h hab => exact ok h (hR h hab)
  | error => exact error

theorem mapM_rows {f : α → Action α'} {g : β → Action β'} {R' : α → Relation α' β'}
    (hR : R.Stable) (hR' : ∀ a, (R' a).Stable) {as : List α} {bs : List β}
    (hab : List.Forall₂ (R s t) as bs)
    (hfg : ∀ {s' t' a b}, Parallel s t s' t' → R s' t' a b → Same (R' a) s' t' (f a s') (g b t')) :
    Same (fun s t => Rows (fun a => R' a s t) as) s t (as.mapM f s) (bs.mapM g t) := by
  induction as generalizing bs s t with
  | nil =>
    cases hab
    exact pure .nil
  | cons a as ih =>
    cases hab with
    | cons hab hmore =>
      rw [List.mapM_cons, List.mapM_cons]
      refine (hfg (.refl s t) hab).bind fun h hc => ?_
      refine (ih (hR.each h.left h.right hmore) fun k => hfg (h.trans k)).bind fun k hcs => ?_
      exact pure (.cons (hR' a k.left k.right hc) hcs)

theorem mapM {f : α → Action α'} {g : β → Action β'} (hR : R.Stable) (hR' : R'.Stable)
    {as : List α} {bs : List β} (hab : List.Forall₂ (R s t) as bs)
    (hfg : ∀ {s' t' a b}, Parallel s t s' t' → R s' t' a b → Same R' s' t' (f a s') (g b t')) :
    Same R'.Each s t (as.mapM f s) (bs.mapM g t) :=
  (mapM_rows hR (fun _ => hR') hab hfg).mono fun _ h => h.forall₂

end Same

def Store.installed (s : Store) (env : Environment) : Nat :=
  (s.frameAt env.root.frame).transformers.length

theorem Store.Expands.installed_le {s t : Store} (h : s.Expands t) (env : Environment) :
    s.installed env ≤ t.installed env :=
  (h.transformers_suffix env.root.frame).length_le

def Rejection (e : Error) : Prop :=
  ∃ store name spec, SyntaxRules.define store name spec = .error e

inductive Agree {α β : Type} (env : Environment) (R : Relation α β) (s t : Store)
    (r : EStateM.Result Error Store α) (r' : EStateM.Result Error Store β) : Prop
  | same (h : Same R s t r r')
  | rejects {e : Error} {s' : Store} (h : Rejection e) (hr : r = .error e s')
  | installs (h : s.installed env < (Action.after r).installed env)

namespace Agree

variable {α β α' β' : Type} {env : Environment} {R : Relation α β} {R' : Relation α' β'}
  {s t s' t' : Store}

theorem pure {a : α} {b : β} (h : R s t a b) :
    Agree env R s t ((Pure.pure a : Action α) s) ((Pure.pure b : Action β) t) :=
  .same (.pure h)

theorem throw {e e' : Error} :
    Agree env R s t ((MonadExcept.throw e : Action α) s) ((MonadExcept.throw e' : Action β) t) :=
  .same .error

theorem follow (h : Parallel s t s' t') {r : EStateM.Result Error Store α}
    {r' : EStateM.Result Error Store β} (hr : Agree env R s' t' r r') : Agree env R s t r r' := by
  cases hr with
  | same hr => exact same (hr.follow h)
  | rejects he hr => exact rejects he hr
  | installs hr =>
    rw [Store.installed, Store.frameAt, h.frames_left] at hr
    exact installs hr

theorem bind {x : Action α} {y : Action β} {f : α → Action α'} {g : β → Action β'}
    (hxy : Agree env R s t (x s) (y t)) (hf : ∀ a, (f a).Expanding)
    (hfg : ∀ {s' t' a b}, Parallel s t s' t' → R s' t' a b →
      Agree env R' s' t' (f a s') (g b t')) :
    Agree env R' s t ((x >>= f) s) ((y >>= g) t) := by
  change Agree env R' s t (EStateM.bind x f s) (EStateM.bind y g t)
  unfold EStateM.bind
  cases hxy with
  | same hxy =>
    generalize x s = r, y t = r' at hxy ⊢
    cases hxy with
    | ok h hab => exact (hfg h hab).follow h
    | error => exact same .error
  | rejects he hx =>
    rw [hx]
    exact rejects he rfl
  | installs hx =>
    cases hr : x s with
    | ok a s' =>
      rw [hr] at hx
      exact installs (Nat.lt_of_lt_of_le hx ((hf a s').installed_le env))
    | error e s' =>
      rw [hr] at hx
      exact installs hx

theorem mapM {f : α → Action α'} {g : β → Action β'} (hR : R.Stable) (hR' : R'.Stable)
    (hf : ∀ a, (f a).Expanding) {as : List α} {bs : List β} (hab : List.Forall₂ (R s t) as bs)
    (hfg : ∀ {s' t' a b}, Parallel s t s' t' → R s' t' a b →
      Agree env R' s' t' (f a s') (g b t')) :
    Agree env R'.Each s t (as.mapM f s) (bs.mapM g t) := by
  induction as generalizing bs s t with
  | nil =>
    cases hab
    exact pure .nil
  | cons a as ih =>
    cases hab with
    | cons hab hmore =>
      rw [List.mapM_cons, List.mapM_cons]
      refine (hfg (.refl s t) hab).bind
        (fun c => (Action.Expanding.mapM hf as).bind fun cs => .pure (c :: cs)) fun h hc => ?_
      refine (ih (hR.each h.left h.right hmore) fun k => hfg (h.trans k)).bind
        (fun cs => .pure _) fun k hcs => ?_
      exact pure (.cons (hR' k.left k.right hc) hcs)

end Agree

section Building

variable {π : Equiv.Perm String} {s t : Store} {car car' cdr cdr' tail tail' : Value}
  {items items' : List Value}

theorem Parallel.of_grows {s' t' : Store} (hs : s.Grows s') (ht : t.Grows t')
    (hsf : s'.frames = s.frames) (htf : t'.frames = t.frames)
    (hs' : s'.phase = s.phase ∧ s'.uses = s.uses) (ht' : t'.phase = t.phase ∧ t'.uses = t.uses) :
    Parallel s t s' t' where
  left := hs
  right := ht
  frames_left := hsf
  frames_right := htf
  stamps h := ⟨hs'.1.trans (h.1.trans ht'.1.symm), hs'.2.trans (h.2.trans ht'.2.symm)⟩

theorem Same.cons (hcar : Renamed π s t car car') (hcdr : Renamed π s t cdr cdr') :
    Same (Renamed π) s t ((liftM (Build.cons car cdr) : Action Value) s)
      ((liftM (Build.cons car' cdr') : Action Value) t) := by
  have hs := s.grows_push_pair ⟨car, cdr⟩
  have ht := t.grows_push_pair ⟨car', cdr'⟩
  refine .ok (.of_grows hs ht rfl rfl ⟨rfl, rfl⟩ ⟨rfl, rfl⟩) ?_
  refine .pair (by simp) (by simp) ?_ ?_
  · rw [Store.pairAt_push_size, Store.pairAt_push_size]
    exact hcar.grow hs ht
  · rw [Store.pairAt_push_size, Store.pairAt_push_size]
    exact hcdr.grow hs ht

theorem Same.vector (hitems : List.Forall₂ (Renamed π s t) items items') :
    Same (Renamed π) s t ((liftM (Build.vector items.toArray) : Action Value) s)
      ((liftM (Build.vector items'.toArray) : Action Value) t) := by
  have hs := s.grows_push_vector items.toArray
  have ht := t.grows_push_vector items'.toArray
  refine .ok (.of_grows hs ht rfl rfl ⟨rfl, rfl⟩ ⟨rfl, rfl⟩) ?_
  refine .vector_of_forall₂ (by simp) (by simp) ?_
  rw [Store.vectorAt_push_size, Store.vectorAt_push_size]
  exact (Renamed.stable π).each hs ht hitems

theorem Same.spines (items items' : List Value) (tail tail' : Value) (s t : Store) :
    Same (fun s t v w => s.Spine v items tail ∧ t.Spine w items' tail') s t
      ((liftM (Build.listWithTail items tail) : Action Value) s)
      ((liftM (Build.listWithTail items' tail') : Action Value) t) := by
  obtain ⟨hs, hspine⟩ := Build.listWithTail_spine items tail s
  obtain ⟨ht, hspine'⟩ := Build.listWithTail_spine items' tail' t
  have hrest : ∀ items tail (s : Store), (Build.listWithTail items tail s).2.frames = s.frames ∧
      (Build.listWithTail items tail s).2.phase = s.phase ∧
      (Build.listWithTail items tail s).2.uses = s.uses := by
    intro items tail s
    rw [Build.listWithTail_rest]
    exact ⟨rfl, rfl, rfl⟩
  obtain ⟨hframes, hstamps⟩ := hrest items tail s
  obtain ⟨hframes', hstamps'⟩ := hrest items' tail' t
  exact .ok (.of_grows hs ht hframes hframes' hstamps hstamps') ⟨hspine, hspine'⟩

theorem Same.listWithTail (hitems : List.Forall₂ (Renamed π s t) items items')
    (htail : Renamed π s t tail tail') :
    Same (Renamed π) s t ((liftM (Build.listWithTail items tail) : Action Value) s)
      ((liftM (Build.listWithTail items' tail') : Action Value) t) :=
  (Same.spines items items' tail tail' s t).mono fun h hspines =>
    .of_spine hspines.1 hspines.2 ((Renamed.stable π).each h.left h.right hitems)
      (htail.grow h.left h.right)

theorem Same.list (hitems : List.Forall₂ (Renamed π s t) items items') :
    Same (Renamed π) s t ((liftM (Build.list items) : Action Value) s)
      ((liftM (Build.list items') : Action Value) t) :=
  .listWithTail hitems (.constant rfl)

end Building

end HygienicScheme
