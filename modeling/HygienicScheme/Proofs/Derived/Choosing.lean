import HygienicScheme.Proofs.Derived.Selection

/-!
# Whole `cond` forms

When a `cond` form is expanded as a whole and its stamps are settled, what comes of it does what its
clauses say. The identifiers that hold the values of tests are new, and no code of the user's has
hold of them.
-/
namespace HygienicScheme

open Machine Store Sketch
open Expansion (expandToplevel expand started maxDepth)

namespace Renaming

variable {s t : Store} {v w tail : Value} {items : List Value} {bound : List Symbol} {n : Nat}
  {y : Symbol}

theorem listWithTail_ne_symbol (hitems : items ≠ [])
    (h : (liftM (Build.listWithTail items tail) : Action Value) s = .ok w t) : w ≠ .symbol y := by
  rintro rfl
  have hspine := (Build.listWithTail_spine items tail s).2
  rw [Action.lift_ok h] at hspine
  cases hspine
  exact hitems rfl

theorem rebuild_ne_symbol {f : Value → Action Value} (hitems : items ≠ [])
    (h : rebuild f items tail s = .ok w t) : w ≠ .symbol y := by
  obtain ⟨ws, t₁, hws, h⟩ := Action.ok_of_bind h
  obtain ⟨x, t₂, -, h⟩ := Action.ok_of_bind h
  refine listWithTail_ne_symbol ?_ h
  rintro rfl
  cases items with
  | nil => exact hitems rfl
  | cons item more =>
    rw [List.mapM_cons] at hws
    obtain ⟨_, _, _, hws⟩ := Action.ok_of_bind hws
    obtain ⟨_, _, _, hws⟩ := Action.ok_of_bind hws
    cases hws

theorem code_symbol (h : code bound n v s = .ok (.symbol y) t) :
    ∃ x, v = .symbol x ∧ y.name = x.name := by
  cases n with
  | zero =>
    unfold code at h
    cases h
  | succ n =>
    cases v with
    | symbol x =>
      unfold code at h
      cases h
      refine ⟨x, rfl, ?_⟩
      split <;> rfl
    | pair a =>
      cases hsplit : s.splitList? (.pair a) with
      | none =>
        unfold code at h
        dsimp only at h
        rw [Action.get_bind, hsplit] at h
        cases h
      | some parts =>
        obtain ⟨items, tail⟩ := parts
        have hitems : items ≠ [] := by
          rintro rfl
          cases splitList?_eq_some.mp hsplit with
          | tail hp => exact hp a rfl
        rw [code_pair hsplit] at h
        cases hform : Form.of items tail with
        | quote data =>
          rw [hform] at h
          obtain ⟨_, _, _, h⟩ := Action.ok_of_bind h
          cases h
        | quasiquote t =>
          rw [hform] at h
          obtain ⟨_, _, _, h⟩ := Action.ok_of_bind h
          exact absurd rfl (listWithTail_ne_symbol (by simp) h)
        | definition =>
          rw [hform] at h
          cases h
        | other =>
          rw [hform] at h
          exact absurd rfl (rebuild_ne_symbol hitems h)
    | vector a =>
      unfold code at h
      dsimp only at h
      cases n with
      | zero =>
        unfold strip at h
        cases h
      | succ n =>
        unfold strip at h
        rw [Action.get_bind] at h
        obtain ⟨stamped, _, _, h⟩ := Action.ok_of_bind h
        split at h
        · obtain ⟨_, _, _, h⟩ := Action.ok_of_bind h
          cases h
        · cases h
    | _ =>
      unfold code at h
      cases h

end Renaming

namespace Derived

variable {env : Environment} {s t u last : Store} {own : Reserve} {v w form : Value}
  {vs : List Value}
  {bs bs' : List (Symbol × Clause)} {bound : List Symbol} {x : Symbol} {W : Sketch}

/-- What is applied to the value of a test is no keyword, neither before nor after it is
expanded. -/
def Receivers (env : Environment) (s u : Store) (vs : List Value) : Prop := ∀ r, s.Receives vs r →
  (∀ y : Symbol, r = .symbol y → u.transformer? y.name env.chain = none) ∧
    ∀ y : Symbol, Becomes env s u r (.symbol y) → isCoreKeyword y.name = false

theorem adds_started (hs : s.All s.Known) : s.Adds .none (started s) .none where
  toReserves := .of_kept ⟨.none _, .of_eq rfl rfl rfl⟩ (knowing.phase hs)
  expands := expands_started s

theorem has_rest {T : Sketch} (h : bs ≠ [] → (selects bs).Has T) (hbs : bs ≠ []) :
    ∃ U ∈ (if bs.isEmpty then [] else [selects bs]), U.Has T := by
  cases bs with
  | nil => exact absurd rfl hbs
  | cons b bs => exact ⟨_, .head _, h hbs⟩

theorem has_holder (hx : x ∈ holders bs) : (selects bs).Has (.atom (.symbol x)) := by
  induction bs with
  | nil => cases hx
  | cons b bs ih =>
    obtain ⟨y, k⟩ := b
    have hrest : x ∈ holders bs →
        ∃ U ∈ (if bs.isEmpty then [] else [selects bs]), U.Has (.atom (.symbol x)) := by
      intro hx
      refine has_rest (fun _ => ih hx) ?_
      rintro rfl
      cases hx
    have hheld : ∀ {test Y}, x ∈ y :: holders bs → (Sketch.holding y (.form "if"
        (.atom (.symbol y) :: Y :: if bs.isEmpty then [] else [selects bs])) test).Has
          (.atom (.symbol x)) := by
      intro test Y hx
      refine .item (.head _) (.item (.tail _ (.tail _ (.head _))) ?_)
      rcases List.mem_cons.mp hx with rfl | hx
      · exact .item (.tail _ (.head _)) .here
      · obtain ⟨U, hU, hhas⟩ := hrest hx
        exact .item (.tail _ (.tail _ (.tail _ hU))) hhas
    cases k with
    | otherwise body => cases hx
    | bare test =>
      cases bs with
      | nil => cases hx
      | cons b bs => exact hheld hx
    | receive test receiver => exact hheld hx
    | plain test body =>
      obtain ⟨U, hU, hhas⟩ := hrest hx
      exact .item (.tail _ (.tail _ (.tail _ hU))) hhas

theorem has_code (helse : ElseLast bs) {b : Symbol × Clause} (hb : b ∈ bs) (hw : w ∈ b.2.codes) :
    (selects bs).Has (.part w) := by
  induction bs with
  | nil => cases hb
  | cons b' bs ih =>
    obtain ⟨y, k⟩ := b'
    have hbody : ∀ {body : List Value}, w ∈ body →
      (Sketch.form "begin" (parts body)).Has (.part w) :=
      fun hw => .item (.tail _ (List.mem_map_of_mem hw)) .here
    have hrest : ElseLast bs → b ∈ bs →
        ∃ U ∈ (if bs.isEmpty then [] else [selects bs]), U.Has (.part w) := by
      intro helse hb
      refine has_rest (fun _ => ih helse hb) ?_
      rintro rfl
      cases hb
    have hbranch : ∀ {keyword A Y}, (b ∈ bs → ElseLast bs) → b ∈ bs → (Sketch.form keyword
        (A :: Y :: if bs.isEmpty then [] else [selects bs])).Has (.part w) := by
      intro keyword A Y helse hb
      obtain ⟨U, hU, hhas⟩ := hrest (helse hb) hb
      exact .item (.tail _ (.tail _ (.tail _ hU))) hhas
    cases k with
    | otherwise body =>
      obtain rfl : bs = [] := helse
      obtain rfl := List.mem_singleton.mp hb
      exact hbody hw
    | bare test =>
      cases bs with
      | nil =>
        obtain rfl := List.mem_singleton.mp hb
        obtain rfl := List.mem_singleton.mp hw
        exact .here
      | cons b' bs =>
        rcases List.mem_cons.mp hb with rfl | hb
        · obtain rfl := List.mem_singleton.mp hw
          exact .item (.tail _ (.head _)) .here
        · exact .item (.head _) (.item (.tail _ (.tail _ (.head _))) (hbranch (fun _ => helse) hb))
    | receive test receiver =>
      rcases List.mem_cons.mp hb with rfl | hb
      · rcases List.mem_cons.mp hw with rfl | hw
        · exact .item (.tail _ (.head _)) .here
        · obtain rfl := List.mem_singleton.mp hw
          exact .item (.head _) (.item (.tail _ (.tail _ (.head _)))
            (.item (.tail _ (.tail _ (.head _))) (.item (.head _) .here)))
      · exact .item (.head _) (.item (.tail _ (.tail _ (.head _))) (hbranch (fun _ => helse) hb))
    | plain test body =>
      rcases List.mem_cons.mp hb with rfl | hb
      · rcases List.mem_cons.mp hw with rfl | hw
        · exact .item (.tail _ (.head _)) .here
        · exact .item (.tail _ (.tail _ (.head _))) (hbody hw)
      · exact hbranch (fun _ => helse) hb

theorem elseLast_of_compiled {R : Value → Value → Prop} (helse : ElseLast bs)
    (h : Compiled R bs bs') : ElseLast bs' := by
  induction h with
  | nil => trivial
  | @cons b b' bs bs' hb h ih =>
    obtain ⟨x, k⟩ := b
    obtain ⟨y, k'⟩ := b'
    obtain ⟨rfl, hk⟩ := hb
    cases hk with
    | otherwise =>
      obtain rfl : bs = [] := helse
      cases h
      rfl
    | _ => exact ih helse

theorem holders_of_compiled {R : Value → Value → Prop} (h : Compiled R bs bs') :
    holders bs' = holders bs := by
  induction h with
  | nil => rfl
  | @cons b b' bs bs' hb h ih =>
    obtain ⟨x, k⟩ := b
    obtain ⟨y, k'⟩ := b'
    obtain ⟨rfl, hk⟩ := hb
    have hempty : bs'.isEmpty = bs.isEmpty := by
      cases h <;> rfl
    cases hk <;> simp [holders, hempty, ih]

theorem applicable_of_compiled (happlied : Applicable bs)
    (h : Compiled (Treated (Renaming.code bound) last u) bs bs') : Applicable bs' := by
  intro b' hb' test' receiver' hk' y hy
  subst hy
  obtain ⟨b, hb, -, hk⟩ := SyntaxRules.exists_of_mem_right h hb'
  rw [hk'] at hk
  generalize hclause : b.2 = k at hk
  cases hk with
  | @receive test _ receiver _ _ hreceiver =>
    have hsymbol : ∃ x : Symbol, receiver = .symbol x ∧ y.name = x.name := by
      rcases hreceiver with ⟨n, t, -, -, -, hw⟩ | ⟨n, t, t', -, hcode, -⟩
      · exact ⟨y, hw.symm, rfl⟩
      · exact Renaming.code_symbol hcode
    obtain ⟨x, rfl, hname⟩ := hsymbol
    rw [hname]
    exact happlied b hb test _ hclause x rfl

theorem forall₂_trans {α β γ : Type} {P : α → β → Prop} {Q : β → γ → Prop} {R : α → γ → Prop}
    (hR : ∀ a b c, P a b → Q b c → R a c) {as : List α} {bs : List β} {cs : List γ}
    (h : List.Forall₂ P as bs) (h' : List.Forall₂ Q bs cs) : List.Forall₂ R as cs := by
  induction h generalizing cs with
  | nil =>
    cases h'
    exact .nil
  | cons ha _ ih =>
    cases h' with
    | cons hb h' => exact .cons (hR _ _ _ ha hb) (ih h')

theorem compiles_trans {P Q R : Value → Value → Prop} {k k' k'' : Clause}
    (hR : ∀ v v' v'', P v v' → Q v' v'' → R v v'') (h : k.Compiles P k') (h' : k'.Compiles Q k'') :
    k.Compiles R k'' := by
  cases h with
  | otherwise h =>
    cases h' with
    | otherwise h' => exact .otherwise (forall₂_trans hR h h')
  | bare h =>
    cases h' with
    | bare h' => exact .bare (hR _ _ _ h h')
  | receive h hreceiver =>
    cases h' with
    | receive h' hreceiver' => exact .receive (hR _ _ _ h h') (hR _ _ _ hreceiver hreceiver')
  | plain h hb =>
    cases h' with
    | plain h' hb' => exact .plain (hR _ _ _ h h') (forall₂_trans hR hb hb')

theorem mem_of_holder {α : Type} {ps : List (α × Clause)} {p : α} (h : p ∈ holders ps) :
    ∃ k, (p, k) ∈ ps := by
  induction ps with
  | nil => cases h
  | cons q ps ih =>
    obtain ⟨q, k⟩ := q
    have hmem : p ∈ q :: holders ps → ∃ k', (p, k') ∈ (q, k) :: ps := by
      intro h
      rcases List.mem_cons.mp h with rfl | h
      · exact ⟨k, .head _⟩
      · obtain ⟨k', hk'⟩ := ih h
        exact ⟨k', .tail _ hk'⟩
    cases k with
    | otherwise => cases h
    | bare =>
      rw [holders] at h
      split at h
      · cases h
      · exact hmem h
    | receive => exact hmem h
    | plain => exact hmem (.tail _ h)

theorem receives_of_mem {ks : List Clause} {test r : Value} (h : s.clauses? vs = some ks)
    (hmem : .receive test r ∈ ks) : s.Receives vs r := by
  induction vs generalizing ks with
  | nil =>
    cases h
    cases hmem
  | cons v vs ih =>
    obtain ⟨k, hk, h⟩ := Option.bind_eq_some_iff.mp h
    obtain ⟨ks', hks, h⟩ := Option.bind_eq_some_iff.mp h
    cases h
    rcases List.mem_cons.mp hmem with rfl | hmem
    · exact ⟨[], v, vs, test, rfl, hk⟩
    · exact (ih hks hmem).more

theorem holders_of_params {ps : List (Lambda × Clause)}
    (h : List.Forall₂ (fun b p => p.1.params = [b.1] ∧ p.2 = b.2) bs ps) :
    ∀ p ∈ holders ps, ∃ x ∈ holders bs, p.params = [x] := by
  induction h with
  | nil => nofun
  | @cons b p bs ps hb h ih =>
    obtain ⟨x, k⟩ := b
    obtain ⟨p, k'⟩ := p
    obtain ⟨hp, rfl⟩ := hb
    have hempty : ps.isEmpty = bs.isEmpty := by
      cases h <;> rfl
    have hmem : ∀ q ∈ p :: holders ps, ∃ y ∈ x :: holders bs, q.params = [y] := by
      refine List.forall_mem_cons.mpr ⟨⟨x, .head _, hp⟩, fun q hq => ?_⟩
      obtain ⟨y, hy, hqy⟩ := ih q hq
      exact ⟨y, .tail _ hy, hqy⟩
    cases k' with
    | otherwise => nofun
    | bare =>
      simp only [holders, hempty]
      split
      · nofun
      · exact hmem
    | receive => exact hmem
    | plain => exact ih

/-- The value does what the clauses say, with identifiers of its own to hold what the tests give. -/
structure Selects (env : Environment) (s u : Store) (vs : List Value) (own : Reserve)
    (bound : List Symbol) (ks : List Clause) (ps : List (Lambda × Clause)) (w : Value) : Prop where
  read : s.clauses? vs = some ks
  code : List.Forall₂ (fun k p => k.Compiles (Code env bound s u) p.2) ks ps
  fresh : ∀ p ∈ holders ps, ∃ x, p.params = [x] ∧ own.Has (.symbol x) ∧
    Fresh s u (ps.flatMap (·.2.codes)) x
  runs : ∀ ⦃t more⦄, u.Reserves own t more → ∀ c d env' r s',
    alone c d (.tail w env') t r s' ↔ select c d ps env' t r s'

structure Chosen (env : Environment) (s u : Store) (vs : List Value) (U : Sketch) (ks : List Clause)
    (bs : List (Symbol × Clause)) : Prop where
  sketch : U = selects bs
  selected : Selected env u s vs ks bs
  applicable : Applicable bs

section Whole

variable (hs : s.All s.Known) (hform : s.Known form) (hexpands : s.Expands u)
  (hlist : s.properList? form = some (.symbol x :: vs)) (hx : x.name = "cond")
  (htemp : u.transformer? "temp" env.chain = none) (hreceivers : Receivers env s u vs)

include hs hform hexpands hlist hx htemp hreceivers

theorem chosen_of_expand (hexpand : expand env (maxDepth + 1) form (started s) = .ok v last)
    (hlast : last.Expands u) (hstanding : Standing env last (started s)) :
    ∃ own U, (started s).Adds .none last own ∧ last.Looks own v U ∧ U.Legible ∧
      ∃ ks bs, Chosen env s u vs U ks bs := by
  have hsafe : s.Safe .none := ⟨.none s, hs⟩
  have hguest : s.Guest .none form := ⟨hform, Reserve.not_has_none⟩
  have hstart := adds_started hs
  obtain ⟨-, hguests⟩ := List.forall_mem_cons.mp (hsafe.items hguest hlist)
  have hproper : (started s).properList? form = some (.symbol x :: vs) :=
    (properList?_grows hs hform hstart.expands.toGrows).trans hlist
  have happlied : ∀ r, (started s).Receives vs r → ∀ y : Symbol, r = .symbol y →
      last.transformer? y.name env.chain = none ∧ isCoreKeyword y.name = false := by
    rintro r hr y rfl
    obtain ⟨hplain, hkeyword⟩ := hreceivers _ (receives_adds hsafe hstart hguests hr)
    refine ⟨hlast.transformer?_eq_none (hplain y rfl), hkeyword y ⟨0, s, s, .refl s, ?_, hexpands⟩⟩
    rw [Expansion.expand_leaf (v := .symbol y) env 0 nofun]
    rfl
  obtain ⟨own, U, hadds, hU, ks, bs, rfl, hselected⟩ := drafts_cond (H := .part (.symbol x))
    hstart.safe hstanding (hlast.transformer?_eq_none htemp)
    (fun v hv => hstart.guest (hguests v hv)) happlied
    (reads_part hstart.safe (hstart.guest hguest) hproper) (.inr rfl) hx (.refl hstart.safe)
    (.part (hstart.guest hguest)) hexpand (.refl last)
  have hearlier := hselected.earlier hsafe hstart hguests
  have happlicable : Applicable bs := by
    intro b hb test r hk y hy
    subst hy
    obtain ⟨k, hmem, hcompiles⟩ := SyntaxRules.exists_of_mem_right hearlier.compiles hb
    rw [hk] at hcompiles
    cases hcompiles with
    | @receive test _ r _ _ hr =>
      exact (hreceivers r (receives_of_mem hearlier.read hmem)).2 y (hr.later hlast)
  refine ⟨own, _, hadds, hU, legible_selects hselected.stamped happlicable, ks, bs, rfl,
    ⟨hearlier.read, ?_, hearlier.stamped, hearlier.elseLast⟩, happlicable⟩
  exact hearlier.compiles.imp fun _ _ hk => hk.mono fun _ _ hw => hw.later hlast

theorem cond_selects (hintact : Intact env s u) (h : expandToplevel env form s = .ok w u) :
    ∃ own bound ks ps, u.Safe own ∧ Selects env s u vs own bound ks ps w := by
  obtain ⟨last, own, bound, U, W, hslast, hsafe, hW, ⟨ks, bs, rfl, hselected, happlied⟩, hsettled,
    hhas⟩ := expandToplevel_settles hintact h fun v last hexpand hlast hstanding =>
      chosen_of_expand hs hform hexpands hlist hx htemp hreceivers hexpand hlast hstanding
  have hholder : ∀ x ∈ holders bs, own.Has (.symbol x) ∧ ¬ s.Known (.symbol x) ∧ x ∈ bound := by
    intro x hx
    obtain ⟨k, hk⟩ := mem_of_holder hx
    obtain ⟨hown, hnew, hbound⟩ := hhas x (hselected.stamped _ hk) (has_holder hx)
    exact ⟨hown, hnew, hbound.mpr (binds_selects hx)⟩
  obtain ⟨bs', rfl, hcompiled⟩ := settled_selects hselected.stamped hselected.elseLast
    (fun x hx => (hholder x hx).2.2) hsettled
  have hsame := holders_of_compiled hcompiled
  have helse := elseLast_of_compiled hselected.elseLast hcompiled
  obtain ⟨ps, hps, hruns⟩ := runs_selects hsafe helse
    (fun x hx => (hholder x (hsame ▸ hx)).1) (applicable_of_compiled happlied hcompiled) hW
  refine ⟨own, bound, ks, ps, hsafe, hselected.read, ?_, fun p hp => ?_, hruns⟩
  · have htrans : ∀ v v' v'', Becomes env s u v v' → Treated (Renaming.code bound) last u v' v'' →
        Code env bound s u v v'' := fun v v' v'' hv hv' => ⟨v', hv, hv'.earlier hslast⟩
    have hcode : List.Forall₂ (fun k b => k.Compiles (Code env bound s u) b.2) ks bs' := by
      refine forall₂_trans ?_ hselected.compiles hcompiled
      exact fun k b b' hk hb => compiles_trans htrans hk hb.2
    refine forall₂_trans ?_ hcode hps
    exact fun k b p hk hp => hp.2 ▸ hk
  · obtain ⟨x, hx, hpx⟩ := holders_of_params hps p hp
    obtain ⟨hown, hnew, -⟩ := hholder x (hsame ▸ hx)
    refine ⟨x, hpx, hown, fresh_of_guests hsafe.secludes hown hnew fun w hw => ?_⟩
    obtain ⟨q, hq, hw⟩ := List.mem_flatMap.mp hw
    obtain ⟨b, hb, -, hqb⟩ := SyntaxRules.exists_of_mem_right hps hq
    exact hW.guest_of_has (has_code helse hb (hqb ▸ hw))

end Whole

end Derived
end HygienicScheme
