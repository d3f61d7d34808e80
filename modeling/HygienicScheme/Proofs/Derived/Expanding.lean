import HygienicScheme.Proofs.Derived.Drawing

/-!
# Expanding what was drawn

The template of a derived form has derived forms in it, and code of the user's. What comes of it in
the end is told from its sketch: lists whose head means nothing to the expander are expanded item by
item, a use of a derived form is drawn anew, and code of the user's becomes whatever it becomes.
All of this happens on the way to the store in which the whole expansion ends, which tells what the
names of the derived forms stood for meanwhile.
-/
namespace HygienicScheme

open Expansion (expand headOf coreHead maxUses)

structure Store.Precedes (s t : Store) : Prop where
  expands : s.Expands t
  counters : s.phase < t.phase ∨ s.phase = t.phase ∧ min s.uses maxUses ≤ t.uses

namespace Store.Precedes

variable {s t u : Store}

theorem refl (s : Store) : s.Precedes s := ⟨.refl s, .inr ⟨rfl, Nat.min_le_left _ _⟩⟩

theorem trans (h : s.Precedes t) (k : t.Precedes u) : s.Precedes u where
  expands := h.expands.trans k.expands
  counters := by
    have hst := h.counters
    have htu := k.counters
    omega

theorem of_expands (h : s.Expands t) (hphase : t.phase = s.phase) (huses : t.uses = s.uses) :
    s.Precedes t :=
  ⟨h, .inr ⟨hphase.symm, by rw [huses]; exact Nat.min_le_left _ _⟩⟩

theorem of_use (s : Store) : s.Precedes { s with uses := min (s.uses + 1) maxUses } where
  expands := .of_grows (.of_cells_eq rfl rfl) rfl rfl rfl
  counters := .inr ⟨rfl, by dsimp only; omega⟩

end Store.Precedes

def preceding : ExpansionDiscipline where
  Holds _ := True
  Data _ _ := True
  Leads := Store.Precedes
  refl := .refl
  trans := .trans
  data_leads _ _ := trivial
  constant _ _ _ _ := trivial
  name _ := trivial
  slot _ _ _ := trivial
  cons _ _ _ := ⟨⟨trivial, .of_expands (.of_grows (Store.grows_push_pair _ _) rfl rfl rfl) rfl rfl⟩,
    trivial⟩
  vector _ _ :=
    ⟨⟨trivial, .of_expands (.of_grows (Store.grows_push_vector _ _) rfl rfl rfl) rfl rfl⟩,
    trivial⟩
  symbol _ _ := trivial
  use _ := ⟨⟨trivial, .of_use _⟩, trivial⟩
  phase _ := ⟨trivial, .of_grows (.of_cells_eq rfl rfl) rfl rfl rfl, .inl (Nat.lt_succ_self _)⟩
  install env _ _ _ hm _ := ⟨trivial, .of_expands (Store.expands_install _ env
    (SyntaxRules.define_ok hm.compiled).2.templates) rfl rfl⟩
  constants _ _ _ _ := trivial

namespace Store

variable {s t last : Store} {name : String} {chain : List Address} {names : List String}

def Retains (names : List String) (chain : List Address) (s t : Store) : Prop :=
  ∀ f ∈ chain, ∃ new, (t.frameAt f).transformers = new ++ (s.frameAt f).transformers ∧
    ∀ m ∈ new, m.1 ∉ names

theorem Retains.transformer?_eq (h : Retains names chain s last) (hst : s.Expands t)
    (hlast : t.Expands last) (hname : name ∈ names) :
    t.transformer? name chain = s.transformer? name chain := by
  unfold Retains at h
  induction chain with
  | nil => rfl
  | cons f outer ih =>
    obtain ⟨hf, houter⟩ := List.forall_mem_cons.mp h
    rw [transformer?, transformer?, ih houter]
    obtain ⟨new, hnew, hapart⟩ := hf
    obtain ⟨first, hfirst, -⟩ := hst.transformers_eq f
    obtain ⟨more, hmore, -⟩ := hlast.transformers_eq f
    have heq : new = more ++ first := by
      rw [hmore, hfirst, ← List.append_assoc] at hnew
      exact (List.append_cancel_right hnew).symm
    have hnone : first.lookup name = none := by
      refine List.lookup_eq_none_iff.mpr fun m hm => bne_iff_ne.mpr ?_
      rintro rfl
      exact hapart m (heq ▸ List.mem_append_right _ hm) hname
    rw [hfirst, List.lookup_append, hnone, Option.none_or]

end Store

namespace Derived

open Store

variable {env : Environment} {last s t u : Store} {own more : Reserve} {v w : Value}
  {T U : Sketch} {Ts Us : List Sketch} {P Q : Sketch → Prop} {Qs : List (Sketch → Prop)}
  {room : Nat}

def Becomes (env : Environment) (s last : Store) (v w : Value) : Prop :=
  ∃ room t u, s.Expands t ∧ expand env room v t = .ok w u ∧ u.Expands last

theorem Becomes.earlier (h : Becomes env t last v w) (hst : s.Expands t) :
    Becomes env s last v w := by
  obtain ⟨room, t', u, ht, hexpand, hu⟩ := h
  exact ⟨room, t', u, hst.trans ht, hexpand, hu⟩

def Drafts (env : Environment) (last : Store) (own : Reserve) (s : Store) (T : Sketch)
    (P : Sketch → Prop) : Prop :=
  ∀ ⦃t more v room w u⦄, s.Adds own t more → t.Looks more v T → expand env room v t = .ok w u →
    u.Precedes last → ∃ most U, t.Adds more u most ∧ u.Looks most w U ∧ P U

namespace Drafts

theorem mono (h : Drafts env last own s T P) (hPQ : ∀ U, P U → Q U) :
    Drafts env last own s T Q := by
  intro t more v room w u hst hlooks hexpand hlast
  obtain ⟨most, U, hadds, hU, hP⟩ := h hst hlooks hexpand hlast
  exact ⟨most, U, hadds, hU, hPQ U hP⟩

theorem later (h : Drafts env last own s T P) (hst : s.Adds own t more) :
    Drafts env last more t T P := fun _ _ _ _ _ _ htu => h (hst.trans htu)

theorem atom : Drafts env last own s (.atom v) (· = .atom v) := by
  intro t more w room w' u hst hlooks hexpand _
  cases hlooks with
  | atom hatom hv hmark =>
    rw [Expansion.expand_leaf env room hatom] at hexpand
    cases hexpand
    exact ⟨more, _, .refl hst.safe, .atom hatom hv hmark, rfl⟩

theorem part : Drafts env last own s (.part v) fun U => ∃ w, U = .part w ∧
    Becomes env s last v w := by
  intro t more v' room w u hst hlooks hexpand hlast
  obtain rfl := hlooks.eq_of_part
  have hv := hlooks.guest
  have hsecluded := ((ExpansionDiscipline.expands (D := (secluding more).toExpansionDiscipline)
    trivial room).1 hst.secludes hv.apart).of_ok hexpand
  have hknown := ((ExpansionDiscipline.expands (D := knowing.toExpansionDiscipline)
    trivial room).1 hst.known hv.known).of_ok hexpand
  have hexpands := ((Expansion.expanding env room).1 v').of_ok hexpand
  exact ⟨more, _, ⟨.of_kept hsecluded.1 hknown.1, hexpands⟩, .part ⟨hknown.2, hsecluded.2⟩,
    w, rfl, room, t, u, hst.expands, hexpand, hlast.expands⟩

theorem items (h : List.Forall₂ (Drafts env last own s) Ts Qs) {vs ws : List Value}
    (hst : s.Adds own t more) (hlooks : LookAll t more vs Ts)
    (hexpand : (vs.mapM fun v => expand env room v) t = .ok ws u) (hlast : u.Precedes last) :
    ∃ most Us, t.Adds more u most ∧ LookAll u most ws Us ∧ List.Forall₂ (fun Q U => Q U) Qs Us := by
  have hback : ∀ vs ws t u, List.mapM (fun v => expand env room v) vs t = .ok ws u →
      u.Precedes last → t.Precedes last := by
    intro vs ws t u hws hu
    refine ((Discipline.Keeps.mapM (D := preceding.toDiscipline) (R := fun _ _ => True) trivial
      (fun _ _ => trivial) fun v _ t _ _ => ?_).of_ok hws).1.2.trans hu
    exact (ExpansionDiscipline.expands (D := preceding) trivial room).1 trivial trivial
  have hitems : List.Forall₂ (fun T Q => ∀ ⦃t more v w u⦄, s.Adds own t more → t.Looks more v T →
      expand env room v t = .ok w u → u.Precedes last →
        ∃ most U, t.Adds more u most ∧ u.Looks most w U ∧ Q U) Ts Qs := by
    refine h.imp ?_
    intro T Q hT t more v w u hst hv hw hu
    exact hT hst hv hw hu
  exact Store.Adds.items hback hitems hst hlooks hexpand hlast

theorem precedes_list {vs : List Value}
    (h : (liftM (Build.list vs) : Action Value) s = .ok w t) : s.Precedes t :=
  ((Discipline.keeps_list (D := preceding.toDiscipline) trivial fun _ _ => trivial).of_ok h).1.2

theorem split (hlooks : s.Looks own v (.list (T :: Ts))) (hexpand : expand env room v s = .ok w u) :
    ∃ a vs n, v = .pair a ∧ room = n + 1 ∧ s.splitList? v = some (vs, .null) ∧
      LookAll s own vs (T :: Ts) := by
  obtain ⟨vs, hchain, hvs⟩ := hlooks.chain
  cases hchain with
  | tail => cases hvs
  | @pair a items _ hchain =>
    refine ⟨a, (s.pairAt a).car :: items, room - 1, rfl, ?_,
      Store.splitList?_eq_some.mpr (.pair hchain), hvs⟩
    cases room with
    | zero =>
      rw [Expansion.expand_zero] at hexpand
      cases hexpand
    | succ room => rfl

end Drafts

def Inert (env : Environment) (last : Store) (Ts : List Sketch) : Prop :=
  ∀ x : Symbol, (Ts.head? = some (.atom (.symbol x)) ∨ Ts.head? = some (.part (.symbol x))) →
    last.transformer? x.name env.chain = none ∧ (x.isStamped ∨ coreHead x.name Ts.length = .other)

theorem Inert.headOf_eq (h : Inert env last Ts) {vs : List Value} (hvs : LookAll s own vs Ts)
    (hlast : s.Expands last) : headOf env vs s = .other := by
  unfold headOf
  split
  · rename_i x more
    have hx : last.transformer? x.name env.chain = none ∧
        (x.isStamped ∨ coreHead x.name Ts.length = .other) := by
      cases hvs with
      | cons hv hmore =>
        refine h x ?_
        cases hv with
        | atom => exact .inl rfl
        | part => exact .inr rfl
        | list hall => cases hall
    rw [hlast.transformer?_eq_none hx.1]
    dsimp only
    split
    · rfl
    · rw [hvs.length_eq]
      exact hx.2.resolve_left ‹_›
  · rfl

namespace Drafts

theorem list (hhead : Inert env last (T :: Ts))
    (h : List.Forall₂ (Drafts env last own s) (T :: Ts) Qs) :
    Drafts env last own s (.list (T :: Ts))
      fun U => ∃ Us, U = .list Us ∧ List.Forall₂ (fun Q U => Q U) Qs Us := by
  intro t more v room w u hst hlooks hexpand hlast
  obtain ⟨a, vs, n, rfl, rfl, hsplit, hvs⟩ := split hlooks hexpand
  have hexpands := ((Expansion.expanding env (n + 1)).1 (.pair a)).of_ok hexpand
  rw [Expansion.expand_list hsplit, hhead.headOf_eq hvs (hexpands.trans hlast.expands)] at hexpand
  obtain ⟨ws, t₁, hws, hlist⟩ := Action.ok_of_bind hexpand
  obtain ⟨most, Us, hadds, hUs, hQs⟩ := items h hst hvs hws ((precedes_list hlist).trans hlast)
  obtain ⟨most', hadds', hlooks'⟩ := hadds.safe.list hUs hlist
  exact ⟨most', _, hadds.trans hadds', hlooks', Us, rfl, hQs⟩

theorem binding {keyword : String} (hkeyword : keyword = "lambda" ∨ keyword = "define")
    (hlast : last.transformer? keyword env.chain = none)
    (h : List.Forall₂ (Drafts env last own s) Ts Qs) :
    Drafts env last own s (.list (.atom (.name keyword) :: T :: Ts))
      fun U => ∃ Us, U = .list (.atom (.name keyword) :: T :: Us) ∧
        List.Forall₂ (fun Q U => Q U) Qs Us := by
  intro t more v room w u hst hlooks hexpand hu
  obtain ⟨a, vs, n, rfl, rfl, hsplit, hvs⟩ := split hlooks hexpand
  have hexpands := ((Expansion.expanding env (n + 1)).1 (.pair a)).of_ok hexpand
  cases hvs with
  | @cons head _ vs _ hname hvs =>
    cases hvs with
    | @cons target _ vs _ htarget hvs =>
      obtain rfl := hname.eq_of_atom
      have hhead : headOf env (.name keyword :: target :: vs) t = .binding := by
        have hnone := (hexpands.trans hu.expands).transformer?_eq_none hlast
        rcases hkeyword with rfl | rfl
        all_goals
          simp only [headOf, Value.name, Symbol.user, hnone]
          simp [Symbol.isStamped, Symbol.userPhase, coreHead]
      rw [Expansion.expand_list hsplit, hhead] at hexpand
      obtain ⟨ws, t₁, hws, hlist⟩ := Action.ok_of_bind hexpand
      obtain ⟨most, Us, hadds, hUs, hQs⟩ := items h hst hvs hws ((precedes_list hlist).trans hu)
      have hreserves := hadds.toReserves
      obtain ⟨most', hadds', hlooks'⟩ := hadds.safe.list
        (.cons (hname.reserves hreserves) (.cons (htarget.reserves hreserves) hUs)) hlist
      exact ⟨most', _, hadds.trans hadds', hlooks', Us, rfl, hQs⟩

theorem quote (hlast : last.transformer? "quote" env.chain = none) :
    Drafts env last own s (.list (.atom (.name "quote") :: Ts))
      (· = .list (.atom (.name "quote") :: Ts)) := by
  intro t more v room w u hst hlooks hexpand hu
  obtain ⟨a, vs, n, rfl, rfl, hsplit, hvs⟩ := split hlooks hexpand
  have hexpands := ((Expansion.expanding env (n + 1)).1 (.pair a)).of_ok hexpand
  cases hvs with
  | @cons head _ vs _ hname hvs =>
    obtain rfl := hname.eq_of_atom
    have hhead : headOf env (.name "quote" :: vs) t = .quote := by
      have hnone := (hexpands.trans hu.expands).transformer?_eq_none hlast
      simp only [headOf, Value.name, Symbol.user, hnone]
      rfl
    rw [Expansion.expand_list hsplit, hhead] at hexpand
    cases hexpand
    exact ⟨more, _, .refl hst.safe, hlooks, rfl⟩

end Drafts

end Derived

end HygienicScheme
