import HygienicScheme.Machine.Run
import HygienicScheme.Proofs.Derived.Binders
import HygienicScheme.Proofs.Derived.Replacing
import HygienicScheme.Proofs.Store.Resolving
import HygienicScheme.Proofs.Uses.Recorded

/-!
# Derived forms expanded as a whole

When a whole form is expanded and its stamps are settled, the lists of the result and the stamps of
the identifiers that were introduced are in a reserve that no code of the user's has hold of. In a
store with no transformers but the derived forms, a form whose expansion installs nothing is
expanded with all derived forms intact.
-/
namespace HygienicScheme

open Expansion (expand expandToplevel started maxDepth maxUses)

namespace Sketch

inductive Has : Sketch → Sketch → Prop
  | here {T : Sketch} : Has T T
  | item {T U : Sketch} {Us : List Sketch} (hU : U ∈ Us) (h : Has U T) : Has (.list Us) T

end Sketch

theorem Store.Looks.exists_of_has {s : Store} {own : Reserve} {v : Value} {T U : Sketch}
    (h : s.Looks own v U) (hT : U.Has T) : ∃ w, s.Looks own w T := by
  induction hT generalizing v with
  | here => exact ⟨v, h⟩
  | item hU _ ih =>
    obtain ⟨vs, -, hvs⟩ := h.chain
    obtain ⟨v', -, hv'⟩ := SyntaxRules.exists_of_mem_right hvs hU
    exact ih hv'

theorem Store.Looks.guest_of_has {s : Store} {own : Reserve} {v w : Value} {U : Sketch}
    (h : s.Looks own v U) (hw : U.Has (.part w)) : s.Guest own w :=
  (h.exists_of_has hw).elim fun _ hlooks => hlooks.guest

namespace Store

variable {s : Store} {bindings : List (Symbol × Value)} {env : Environment} {held : Value}
  {x y : Symbol}

theorem bound?_opened_eq (hx : bindings.lookup x = none) (f : Address) :
    ({ s with frames := s.frames.push ⟨bindings, []⟩ } : Store).bound? f x = s.bound? f x := by
  by_cases hf : f = s.frames.size
  · subst hf
    simp [bound?, frameAt, hx]
  · simp [bound?, frameAt, Array.getElem?_push, hf]

variable (s env held)

theorem means_held (hx : x.isStamped) (hy : y ≠ x) :
    ({ s with frames := s.frames.push ⟨[(x, held)], []⟩ } : Store).lookup?
        ⟨s.frames.size, env.chain⟩ y = s.lookup? env y ∧
      ({ s with frames := s.frames.push ⟨[(x, held)], []⟩ } : Store).resolve?
        ⟨s.frames.size, env.chain⟩ y = s.resolve? env y := by
  refine means_beyond (show _ = [s.frames.size] ++ env.chain from rfl) (fun key hkey => ?_)
    (List.forall_mem_singleton.mpr fun key => bound?_eq_none (Nat.le_refl _))
  have hne : key ≠ x := by
    rcases hkey with rfl | rfl
    · exact hy
    · rintro rfl
      cases hx
  exact bound?_opened_eq (List.lookup_eq_none_iff.mpr
    (List.forall_mem_singleton.mpr (bne_iff_ne.mpr hne)))

end Store

namespace Derived

open Store Sketch Renaming

variable {s t u last : Store} {own more : Reserve} {v w form : Value} {T U : Sketch} {x : Symbol}
  {env : Environment} {room : Nat}

/-- The names of the derived forms mean these forms before the expansion and keep their meaning,
those of the core forms have no other meaning at its end, and every use has a stamp of its own. -/
structure Intact (env : Environment) (s u : Store) : Prop where
  forms : ∀ m ∈ forms, s.transformer? m.name env.chain = some m
  kept : s.Retains (Derived.forms.map (·.name)) env.chain u
  core : ∀ name, isCoreKeyword name → u.transformer? name env.chain = none
  uses : u.uses < maxUses

def Code (env : Environment) (bound : List Symbol) (s u : Store) (v w : Value) : Prop :=
  ∃ v', Becomes env s u v v' ∧ Treated (code bound) s u v' w

theorem Becomes.later (h : Becomes env s last v w) (hu : last.Expands u) :
    Becomes env s u v w := by
  obtain ⟨room, t, t', ht, hexpand, ht'⟩ := h
  exact ⟨room, t, t', ht, hexpand, ht'.trans hu⟩

theorem Treated.earlier {pass : Nat → Value → Action Value} (h : Treated pass last u v w)
    (hs : s.Expands last) : Treated pass s u v w := by
  rcases h with ⟨n, t, ht, htu, hclean⟩ | ⟨n, t, t', ht, hpass, ht'⟩
  · exact .inl ⟨n, t, hs.trans ht, htu, hclean⟩
  · exact .inr ⟨n, t, t', hs.trans ht, hpass, ht'⟩

structure Fresh (s u : Store) (codes : List Value) (x : Symbol) : Prop where
  stamped : x.isStamped
  unused : ¬ s.Before x.phase x.useIndex
  absent : ∀ w ∈ codes, u.Throughout (· ≠ .symbol x) w
  /-- Where it is bound all others mean what they meant. -/
  apart : ∀ (t : Store) (env : Environment) (held : Value) (y : Symbol), y ≠ x →
    ({ t with frames := t.frames.push ⟨[(x, held)], []⟩ } : Store).lookup?
        ⟨t.frames.size, env.chain⟩ y = t.lookup? env y ∧
      ({ t with frames := t.frames.push ⟨[(x, held)], []⟩ } : Store).resolve?
        ⟨t.frames.size, env.chain⟩ y = t.resolve? env y

theorem fresh_of_guests {codes : List Value} (hsecluded : u.Secludes own)
    (hx : own.Has (.symbol x)) (hs : ¬ s.Known (.symbol x)) (hcodes : ∀ w ∈ codes, u.Guest own w) :
    Fresh s u codes x where
  stamped := hx.1
  unused hbefore := hs fun _ => hbefore
  absent w hw := by
    have hthroughout : u.Throughout (¬ own.Has ·) w :=
      .of_invariant (fun _ _ hv hslot => hsecluded.slot hv hslot) (hcodes w hw).apart
    exact hthroughout.mono fun v hv hvx => hv (hvx ▸ hx)
  apart t env held _ hy := means_held t env held hx.1 hy

theorem expands_started (s : Store) : s.Expands (started s) :=
  .of_grows (.of_cells_eq rfl rfl) rfl rfl rfl

theorem known_started (hv : s.Known v) : (started s).Known v := hv.outgrows outgrows_phase

theorem Intact.standing (h : Intact env s u)
    (hexpand : expand env (maxDepth + 1) form (started s) = .ok v last) (hlast : last.Expands u)
    (huses : last.uses ≤ u.uses) : Standing env last (started s) where
  form m hm t hst htlast := by
    have hname : m.name ∈ Derived.forms.map (·.name) := List.mem_map_of_mem hm
    rw [h.kept.transformer?_eq ((expands_started s).trans hst) (htlast.trans hlast) hname]
    exact h.forms m hm
  core name hname := hlast.transformer?_eq_none (h.core name hname)
  phase := by
    obtain ⟨-, hnumbers⟩ := (Expansion.records_expand env (maxDepth + 1)).1 form (started s)
      (Nat.zero_le _)
    rw [hexpand] at hnumbers
    exact Nat.le_of_eq hnumbers.phase_eq
  uses := Nat.lt_of_le_of_lt huses h.uses

/-- A whole form whose expansion is drawn like this is settled to what is drawn alike, with code of
the user's in it that has no hold of the reserve. -/
theorem expandToplevel_settles {P : Sketch → Prop} (hintact : Intact env s u)
    (h : expandToplevel env form s = .ok w u)
    (hdraws : ∀ ⦃v last⦄, expand env (maxDepth + 1) form (started s) = .ok v last →
      last.Expands u → Standing env last (started s) →
      ∃ own U, (started s).Adds .none last own ∧ last.Looks own v U ∧ U.Legible ∧ P U) :
    ∃ last own bound U W, s.Expands last ∧ u.Safe own ∧ u.Looks own w W ∧ P U ∧
      Settled bound last u U W ∧ ∀ x, x.isStamped → U.Has (.atom (.symbol x)) →
        own.Has (.symbol x) ∧ ¬ s.Known (.symbol x) ∧ (x ∈ bound ↔ U.Binds x) := by
  rw [Expansion.expandToplevel_eq] at h
  obtain ⟨v, last, hexpand, hrename⟩ := Action.ok_of_bind h
  have hlast : last.Expands u := (expanding_renameIntroduced v).of_ok hrename
  obtain ⟨⟨-, -, huses⟩, -⟩ :=
    (SyntaxDiscipline.keeps_renameIntroduced (D := counting) trivial trivial).of_ok hrename
  obtain ⟨own, U, hadds, hU, hlegible, hP⟩ :=
    hdraws hexpand hlast (hintact.standing hexpand hlast (Nat.le_of_eq huses.symm))
  obtain ⟨bound, most, W, hadds', hW, hsettled, hbound⟩ :=
    renameIntroduced_settles hlegible hadds.safe hU hrename
  refine ⟨last, most, bound, U, W, (expands_started s).trans hadds.expands, hadds'.safe, hW, hP,
    hsettled, fun x hx hhas => ?_⟩
  obtain ⟨v', hv'⟩ := hU.exists_of_has hhas
  have hown : own.Has (.symbol x) := ⟨hx, hv'.marks x rfl hx⟩
  refine ⟨hadds'.le.has hown, fun hknown => ?_, hbound x hown⟩
  rcases hadds.fresh _ hown with hnone | hnew
  · exact Reserve.not_has_none hnone
  · exact hnew (known_started hknown)

end Derived

/-! ### Stores with the derived forms -/

namespace Derived

open Store

variable {d : Datum} {w : Value} {u : Store}

/-- A store with these bindings, with these transformers and with the derived forms. -/
def installed (bindings : List (Symbol × Value)) (more : List Transformer) : Store :=
  { Store.empty with frames := #[⟨bindings, (more ++ forms).map fun m => (m.name, m)⟩] }

theorem frameAt_installed {bindings : List (Symbol × Value)} {more : List Transformer}
    (f : Address) :
    (installed bindings more).frameAt f =
      if f = 0 then ⟨bindings, (more ++ forms).map fun m => (m.name, m)⟩ else ⟨[], []⟩ := by
  cases f <;> rfl

theorem known_installed : (installed [] []).All (installed [] []).Known := by
  have hempty : Store.empty.All (installed [] []).Known := .empty trivial
  refine { hempty with binding := fun f b hb => ?_, constant := fun f m hm v hv => ?_ }
  · rw [frameAt_installed] at hb
    split at hb <;> cases hb
  · rw [frameAt_installed] at hm
    split at hm
    · obtain ⟨m, hmem, rfl⟩ := List.mem_map.mp hm
      obtain ⟨hconstant, hclosure⟩ := constants_forms hmem v hv
      exact known_constant hconstant hclosure
    · cases hm

def entered (d : Datum) : Value × Store := d.place (installed [] [])

theorem known_entered (h : ∀ x ∈ d.symbols, x.isStamped = false) :
    (entered d).2.All (entered d).2.Known ∧ (entered d).2.Known (entered d).1 := by
  obtain ⟨⟨hknown, -⟩, hv⟩ := EvaluationDiscipline.holds_place (D := knowing.toEvaluationDiscipline)
    (fun x hx _ => known_unstamped (h x hx)) known_installed
  exact ⟨hknown, hv⟩

theorem transformers_entered (h : expandToplevel ⟨0, []⟩ (entered d).1 (entered d).2 = .ok w u)
    (hlength : (u.frameAt 0).transformers.length = 5) :
    (entered d).2.frameAt 0 = ⟨[], forms.map fun m => (m.name, m)⟩ ∧
    (u.frameAt 0).transformers = forms.map fun m => (m.name, m) := by
  have hquiet : (entered d).2.frameAt 0 = ⟨[], forms.map fun m => (m.name, m)⟩ :=
    (d.quiet_place _).frameAt_eq 0
  obtain ⟨new, hnew, -⟩ := ((Expansion.expanding_expandToplevel _ _).of_ok h).transformers_eq 0
  rw [hquiet] at hnew
  have hnil : new = [] := by
    rw [hnew, List.length_append] at hlength
    exact List.eq_nil_of_length_eq_zero (Nat.add_right_cancel (hlength.trans (Nat.zero_add 5).symm))
  rw [hnil] at hnew
  exact ⟨hquiet, hnew⟩

theorem intact_entered (h : expandToplevel ⟨0, []⟩ (entered d).1 (entered d).2 = .ok w u)
    (hlength : (u.frameAt 0).transformers.length = 5) (huses : u.uses < maxUses) :
    Intact ⟨0, []⟩ (entered d).2 u ∧
      ∀ name, (∀ m ∈ forms, m.name ≠ name) → u.transformer? name [0] = none := by
  obtain ⟨hbefore, hafter⟩ := transformers_entered h hlength
  have hnone : ∀ name, (∀ m ∈ forms, m.name ≠ name) → u.transformer? name [0] = none := by
    intro name hname
    refine transformer?_eq_none.mpr (List.forall_mem_singleton.mpr ?_)
    rw [hafter, List.lookup_eq_none_iff]
    intro e he
    obtain ⟨m, hm, rfl⟩ := List.mem_map.mp he
    exact bne_iff_ne.mpr (hname m hm).symm
  refine ⟨⟨?_, ?_, ?_, huses⟩, hnone⟩
  · intro m hm
    simp only [transformer?, Environment.chain, hbefore]
    simp only [forms, List.mem_cons, List.not_mem_nil, or_false] at hm
    rcases hm with rfl | rfl | rfl | rfl | rfl <;> rfl
  · refine List.forall_mem_singleton.mpr ⟨[], ?_, by simp⟩
    rw [hafter, hbefore]
    rfl
  · intro name hname
    refine hnone name ?_
    rintro m hm rfl
    simp only [forms, List.mem_cons, List.not_mem_nil, or_false] at hm
    rcases hm with rfl | rfl | rfl | rfl | rfl <;> cases hname

def expandsPlainly (d : Datum) : Bool :=
  match expandToplevel ⟨0, []⟩ (entered d).1 (entered d).2 with
  | .ok _ u => (u.frameAt 0).transformers.length == 5 && decide (u.uses < maxUses)
  | .error .. => false

theorem exists_of_expandsPlainly (h : expandsPlainly d) : ∃ w u,
    expandToplevel ⟨0, []⟩ (entered d).1 (entered d).2 = .ok w u ∧ Intact ⟨0, []⟩ (entered d).2 u ∧
      ∀ name, (∀ m ∈ forms, m.name ≠ name) → u.transformer? name [0] = none := by
  unfold expandsPlainly at h
  cases hexpand : expandToplevel ⟨0, []⟩ (entered d).1 (entered d).2 with
  | error e u =>
    rw [hexpand] at h
    cases h
  | ok w u =>
    rw [hexpand] at h
    obtain ⟨hlength, huses⟩ := Bool.and_eq_true_iff.mp h
    obtain ⟨hintact, hnone⟩ :=
      intact_entered hexpand (beq_iff_eq.mp hlength) (of_decide_eq_true huses)
    exact ⟨w, u, rfl, hintact, hnone⟩

def expandPlain (env : Environment) : Nat → Value → Action Value
  | 0, .pair _ => throw (.eval (.expansionLimit Expansion.maxDepth))
  | room + 1, .pair a => do
    match ← Action.splitList? (.pair a) with
    | none => return .pair a
    | some (items, tail) =>
      match ← Action.inspect (Expansion.headOf env items) with
      | .use m =>
        let expanded ← Expansion.transcribe env m (.pair a)
        expandPlain env room expanded
      | .quote => return .pair a
      | .binding =>
        let body ← (items.drop 2).mapM fun v => expandPlain env room v
        Build.listWithTail (items.take 2 ++ body) tail
      | .other =>
        let items ← items.mapM fun v => expandPlain env room v
        Build.listWithTail items tail
      | _ => throw .endless
  | _, v => pure v

theorem mapM_of_plain {f g : Value → Action Value} {vs ws : List Value} {s t : Store}
    (hfg : ∀ v s w t, f v s = .ok w t → g v s = .ok w t) (h : vs.mapM f s = .ok ws t) :
    vs.mapM g s = .ok ws t := by
  induction vs generalizing s t ws with
  | nil => exact h
  | cons v vs ih =>
    rw [List.mapM_cons] at h ⊢
    obtain ⟨w, s₁, hw, h⟩ := Action.ok_of_bind h
    obtain ⟨ws, s₂, hws, h⟩ := Action.ok_of_bind h
    rw [Action.bind_ok (hfg v s w s₁ hw), Action.bind_ok (ih hws)]
    exact h

theorem expandPlain_leaf (env : Environment) (room : Nat) {v : Value} (hv : ∀ a, v ≠ .pair a) :
    expandPlain env room v = pure v := by
  cases v with
  | pair a => exact absurd rfl (hv a)
  | _ => cases room <;> rfl

theorem expand_of_plain {env : Environment} {room : Nat} {v : Value} {s t : Store}
    (h : expandPlain env room v s = .ok w t) : Expansion.expand env room v s = .ok w t := by
  induction room generalizing v s w t with
  | zero =>
    by_cases hv : ∀ a, v ≠ .pair a
    · rwa [Expansion.expand_leaf env 0 hv, ← expandPlain_leaf env 0 hv]
    · obtain ⟨a, rfl⟩ := not_forall_not.mp hv
      cases h
  | succ room ih =>
    by_cases hv : ∀ a, v ≠ .pair a
    · rwa [Expansion.expand_leaf env _ hv, ← expandPlain_leaf env (room + 1) hv]
    · obtain ⟨a, rfl⟩ := not_forall_not.mp hv
      unfold expandPlain at h
      rw [Action.splitList?, Action.inspect_bind] at h
      cases hsplit : s.splitList? (.pair a) with
      | none =>
        rw [hsplit] at h
        exact (Expansion.expand_circular hsplit).trans h
      | some parts =>
        obtain ⟨items, tail⟩ := parts
        rw [hsplit] at h
        dsimp only at h
        rw [Action.inspect_bind] at h
        rw [Expansion.expand_list hsplit]
        cases hhead : Expansion.headOf env items s with
        | use m =>
          rw [hhead] at h
          obtain ⟨v', t₁, htranscribe, h⟩ := Action.ok_of_bind h
          exact (Action.bind_ok htranscribe _).trans (ih h)
        | quote =>
          rw [hhead] at h
          exact h
        | binding | other =>
          rw [hhead] at h
          obtain ⟨ws, t₁, hws, h⟩ := Action.ok_of_bind h
          exact (Action.bind_ok (mapM_of_plain (fun _ _ _ _ => ih) hws) _).trans h
        | _ =>
          rw [hhead] at h
          cases h

def plainlyPasses (check : Value → Store → Bool) (env : Environment) (form : Value) (s : Store) :
    Bool :=
  match (expandPlain env (Expansion.maxDepth + 1) form >>= Renaming.renameIntroduced)
    (Expansion.started s) with
  | .ok w u => check w u
  | .error .. => false

theorem exists_of_plainlyPasses {check : Value → Store → Bool} {env : Environment} {form : Value}
    {s : Store} (h : plainlyPasses check env form s) :
    ∃ w u, expandToplevel env form s = .ok w u ∧ check w u := by
  unfold plainlyPasses at h
  split at h
  · rename_i w u hplain
    obtain ⟨v, t, hv, hrename⟩ := Action.ok_of_bind hplain
    refine ⟨w, u, ?_, h⟩
    rw [Expansion.expandToplevel_eq, Action.bind_ok (expand_of_plain hv)]
    exact hrename
  · cases h

/-- The number that comes of a form in such a store, if one comes within so many steps. -/
def gives (s : Store) (steps : Nat) (d : Datum) : Option Int64 :=
  let placed := d.place s
  match expandToplevel ⟨0, []⟩ placed.1 placed.2 with
  | .ok w u =>
    match ((Machine.start w ⟨0, []⟩ u).run ⟨100, false, ⟨0, []⟩, "out"⟩ steps).1 with
    | .value (.int n) => some n
    | _ => none
  | .error .. => none

theorem expandsPlainly_of_passes (h : plainlyPasses (fun _ u =>
    (u.frameAt 0).transformers.length == 5 && decide (u.uses < maxUses)) ⟨0, []⟩ (entered d).1
      (entered d).2) : expandsPlainly d := by
  obtain ⟨w, u, hexpand, hcheck⟩ := exists_of_plainlyPasses h
  rw [expandsPlainly, hexpand]
  exact hcheck

theorem gives_of_passes {s : Store} {steps : Nat} {n : Int64}
    (h : plainlyPasses (fun w u => (match ((Machine.start w ⟨0, []⟩ u).run
      ⟨100, false, ⟨0, []⟩, "out"⟩ steps).1 with
      | .value (.int k) => some k
      | _ => none) == some n) ⟨0, []⟩ (d.place s).1 (d.place s).2) : gives s steps d = some n := by
  obtain ⟨w, u, hexpand, hcheck⟩ := exists_of_plainlyPasses h
  unfold gives
  dsimp only
  rw [hexpand]
  exact beq_iff_eq.mp hcheck

end Derived

end HygienicScheme
