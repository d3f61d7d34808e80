import HygienicScheme.Proofs.Expansion.Endings
import HygienicScheme.Proofs.Expansion.Positions
import HygienicScheme.Proofs.Stamps.Rewriting

/-!
# No use is left

The expander looks at the head of a list before it expands the items. So a list whose head is a
symbol is no use any more when the expander is done with it, while a list that stands as a head may
itself be expanded to the name of a transformer. If this happens nowhere, then no list in a code
position of what comes of the form has the name of a transformer as its head: the calls of the
expander leave none, each if the calls that it makes do, and settling the stamps afterwards changes
no head's name.
-/
namespace HygienicScheme

open Renaming (Form)

variable {s t u u' first last : Store} {v w r tail : Value} {items rs : List Value}
  {room level : Nat} {env : Environment} {Q : Symbol → Prop}

namespace Store.Headed

theorem of_chain (hchain : s.Chain v items tail) (hhead : ∀ x more, items = .symbol x :: more → Q x)
    (hcode : ∀ w ∈ codeItems items, s.Headed Q .code w)
    (htemplate : ∀ w, Form.of items tail = .quasiquote w → s.Headed Q (.template 1) w) :
    s.Headed Q .code v := by
  cases v with
  | pair a => exact .list hchain hhead hcode htemplate
  | _ => exact .atom nofun

end Store.Headed

/-! ## Taking off stamps -/

namespace Store.Sheds

theorem codeItems (h : List.Forall₂ (s.Sheds t) items rs) (hitems : ∀ v ∈ items, s.Form v) :
    List.Forall₂ (s.Sheds t) (codeItems items) (codeItems rs) := by
  unfold HygienicScheme.codeItems
  rw [ofItems_eq h hitems]
  split
  · exact List.forall₂_drop 2 h
  · exact List.forall₂_drop 2 h
  · exact h
  all_goals exact .nil

end Store.Sheds

theorem Store.Headed.sheds {role : Role} (h : s.Headed Q role v) (hv : s.Form v)
    (hr : s.Sheds t v r) (hQ : ∀ x, Q x → Q x.unstamped) : t.Headed Q role r := by
  induction h generalizing r with
  | atom hp => exact .atom (hr.ne_pair hp)
  | list hchain hhead _ _ hcode htemplate =>
    obtain ⟨rs, last, hchain', hrs, hlast⟩ := hr.chain hchain
    obtain ⟨hitems, htail⟩ := hv.chain hchain
    refine .of_chain hchain' ?_ (fun w hw => ?_) fun w hw => ?_
    · rintro y more rfl
      obtain ⟨head, _, hy, -, rfl⟩ := List.forall₂_cons_right_iff.mp hrs
      cases hy with
      | same => exact hhead y _ rfl
      | symbol => exact hQ _ (hhead _ _ rfl)
    · obtain ⟨v, hv, hvw⟩ := SyntaxRules.exists_of_mem_right (Sheds.codeItems hrs hitems) hw
      exact hcode v hv (hitems v (mem_of_codeItems hv)) hvw
    · obtain ⟨v, hv, hvw⟩ := Sheds.quasiquote hrs hitems hlast htail hw
      obtain ⟨head, rfl⟩ := Form.of_quasiquote hv
      exact htemplate v hv (hitems v (by simp)) hvw
  | leaf hp hvector =>
    cases hr with
    | same => exact .leaf hp hvector
    | symbol => exact .leaf nofun nofun
    | pair => exact absurd rfl (hp _)
    | vector => exact absurd rfl (hvector _)
  | form hform _ hoperand =>
    obtain ⟨w, hw, hvw⟩ := hr.form hform
    obtain ⟨a, head, rfl, -, hchain⟩ := quasiForm?_chain hform
    exact .form hw (hoperand ((hv.chain hchain).1 _ (by simp)) hvw)
  | @pair a level hform _ _ hcar hcdr =>
    obtain ⟨b, rfl⟩ := hr.exists_pair
    obtain ⟨a', heq, -, hcar', hcdr'⟩ := hr.pair_lt
    cases heq
    exact .pair (hr.form_none hv hform) (hcar hv.car hcar') (hcdr hv.cdr hcdr')
  | @vector a level _ hitems =>
    cases hr with
    | same _ hvector => exact absurd rfl (hvector a)
    | vector hb hlength hpairs =>
      refine .vector fun w hw => ?_
      obtain ⟨v, hvw⟩ := exists_mem_zip hlength hw
      have hmem := (List.of_mem_zip hvw).1
      exact hitems v hmem (hv.item v hmem) (hpairs v w hvw)

/-! ## Expansion -/

structure Shaped (s t : Store) (v r : Value) : Prop where
  mirrors : Mirrors v r
  last : ∀ {a b}, v = .pair a → r = .pair b → (t.pairAt b).cdr = .null → (s.pairAt a).cdr = .null

theorem Shaped.of_grows (h : Shaped u t v r) (hs : s.Grows u) (hv : s.Tree v) (ht : t.Grows u')
    (hr : t.Tree r) : Shaped s u' v r where
  mirrors := h.mirrors
  last := by
    rintro a b rfl rfl hnull
    rw [ht.pairAt_eq hr.pair_lt] at hnull
    rw [← hs.pairAt_eq hv.pair_lt]
    exact h.last rfl rfl hnull

theorem Store.Expands.transformer?_eq (h : first.Expands s) (k : s.Expands last)
    (hframes : last.frames = first.frames) (name : String) (chain : List Address) :
    s.transformer? name chain = last.transformer? name chain := by
  have hsame : ∀ f, (s.frameAt f).transformers = (last.frameAt f).transformers := by
    intro f
    have hlast : (last.frameAt f).transformers = (first.frameAt f).transformers := by
      rw [frameAt, frameAt, hframes]
    have hfirst := h.transformers_suffix f
    rw [← hlast] at hfirst
    exact (k.transformers_suffix f).eq_of_length_le hfirst.length_le
  induction chain with
  | nil => rfl
  | cons f outer ih => rw [transformer?, transformer?, hsame, ih]

namespace Expansion

open HygienicScheme.Action (ok_of_bind)
open Reference (innerLevel)

def Call.Stable (env : Environment) : Call → Prop
  | .form (room + 1) v s => ∀ b more tail x t, s.Chain v (.pair b :: more) tail →
    expand env room (.pair b) s = .ok (.symbol x) t →
      s.transformer? x.name env.chain = none ∧ x.name ≠ "quasiquote"
  | _ => True

def Unbound (env : Environment) (s : Store) (x : Symbol) : Prop :=
  s.transformer? x.name env.chain = none

def Call.Leaves (env : Environment) (last : Store) : Call → Prop
  | .form room v s => ∀ w t, expand env room v s = .ok w t → t.Expands last →
    t.Tree w ∧ t.Headed (Unbound env last) .code w
  | .template room level v s => ∀ fuel w t, expandTemplate env room fuel level v s = .ok w t →
    t.Expands last → t.Tree w ∧ t.Headed (Unbound env last) (.template level) w ∧ Shaped s t v w

theorem headOf_unused (h : ∀ m, headOf env items s ≠ .use m) {x : Symbol} {more : List Value}
    (hitems : items = .symbol x :: more) : s.transformer? x.name env.chain = none := by
  subst hitems
  by_contra hsome
  obtain ⟨m, hm⟩ := Option.ne_none_iff_exists'.mp hsome
  exact h m (by simp only [headOf, hm])

theorem codeItems_of_headOf (h : headOf env items s = .quote ∨ headOf env items s = .quasiquote ∨
    headOf env items s = .defineSyntax) : codeItems items = [] := by
  unfold headOf coreHead at h
  split at h
  · rename_i x more
    split at h
    · simp at h
    · split_ifs at h <;> simp_all [codeItems, Renaming.Head.ofItems]
  · simp at h

theorem ofItems_ne_quasiquote (hunused : ∀ m, headOf env items s ≠ .use m)
    (h : headOf env items s ≠ .quasiquote) : Renaming.Head.ofItems items ≠ .quasiquote := by
  intro hquasiquote
  obtain ⟨x, more, rfl, hx, hname⟩ := Renaming.Head.ofItems_quasiquote hquasiquote
  have hnone := headOf_unused hunused rfl
  rw [hname] at hnone
  exact h (by simp [headOf, hnone, hx, coreHead, hname])

theorem mapM_head {f : Value → Action Value} {v : Value} {vs ws : List Value}
    (h : vs.mapM f s = .ok (v :: ws) t) : ∃ w more u, vs = w :: more ∧ f w s = .ok v u := by
  cases vs with
  | nil => cases h
  | cons w more =>
    rw [List.mapM_cons] at h
    obtain ⟨v', u, hv, h⟩ := ok_of_bind h
    obtain ⟨ws', u', -, h⟩ := ok_of_bind h
    cases h
    exact ⟨w, more, u, rfl, hv⟩

section List

variable {a : Address} {ws : List Value}

theorem kept_leaves (hv : s.Tree (.pair a)) (hg : s.Grows t) (hchain : s.Chain (.pair a) items tail)
    (hunbound : ∀ x more, items = .symbol x :: more → Unbound env last x)
    (hcode : codeItems items = []) (hform : ∀ w, Form.of items tail ≠ .quasiquote w) :
    t.Headed (Unbound env last) .code (.pair a) := by
  refine .list ((hv.inside.chain_grows hg).mpr hchain) hunbound ?_ fun w hw => absurd hw (hform w)
  rw [hcode]
  exact nofun

theorem relist_leaves (front : List Value)
    (hws : ∀ w ∈ ws, t.Tree w ∧ t.Headed (Unbound env last) .code w)
    (htail : ∀ a, tail ≠ .pair a)
    (hunbound : ∀ x more, front ++ ws = .symbol x :: more → Unbound env last x)
    (hcode : ∀ w ∈ codeItems (front ++ ws), w ∈ ws)
    (hform : Renaming.Head.ofItems (front ++ ws) ≠ .quasiquote)
    (h : (liftM (Build.listWithTail (front ++ ws) tail) : Action Value) t = .ok w u) :
    u.Headed (Unbound env last) .code w := by
  obtain ⟨hg, hspine⟩ := Build.listWithTail_spine (front ++ ws) tail t
  cases h
  refine .of_chain (hspine.chain htail) hunbound (fun v hv => ?_) fun v hv => ?_
  · obtain ⟨htree, hheaded⟩ := hws v (hcode v hv)
    exact hheaded.grow htree hg
  · exact absurd (Renaming.Form.eq_quasiquote.mp hv).1 hform

theorem row_leaves (hsplit : s.splitList? (.pair a) = some (items, tail))
    (ih : ∀ d, Calls env (.form (room + 1) (.pair a) s) d → d.Leaves env last)
    (h : (expandedItems items (headOf env items s)).mapM (expand env room) s = .ok ws t)
    (hlast : t.Expands last) : ∀ w ∈ ws, t.Tree w ∧ t.Headed (Unbound env last) .code w := by
  have hall := Action.Expanding.mapM_after
    (Q := fun t _ w => t.Tree w ∧ t.Headed (Unbound env last) .code w)
    (expanding env room).1
    (fun hst hw => ⟨hw.1.grow hst.toGrows, hw.2.grow hw.1 hst.toGrows⟩) h
    fun before w after done s' r t' hitems hdone hr ht' =>
      ih _ (.item hsplit hitems hdone) r t' hr (ht'.trans hlast)
  intro w hw
  obtain ⟨v, -, hvw⟩ := SyntaxRules.exists_of_mem_right hall hw
  exact hvw

theorem quasiquote_leaves {keyword operand : Value}
    (hsplit : s.splitList? (.pair a) = some ([keyword, operand], .null))
    (hhead : headOf env [keyword, operand] s = .quasiquote)
    (hunbound : ∀ x more, [keyword, operand] = .symbol x :: more → Unbound env last x)
    (ih : ∀ d, Calls env (.form (room + 1) (.pair a) s) d → d.Leaves env last)
    (h : expandTemplate env room s.walkBound 1 operand s = .ok v t)
    (hw : (liftM (Build.list [keyword, v]) : Action Value) t = .ok w u) (hlast : t.Expands last) :
    u.Headed (Unbound env last) .code w := by
  obtain ⟨htree, hheaded, -⟩ := ih _ (.quasiquote hsplit hhead) _ _ _ h hlast
  have hcode : codeItems [keyword, v] = [] := by
    have hof := (Renaming.Form.eq_quasiquote.mp (form_of_quasiquote hhead)).1
    rw [Renaming.Head.ofItems_cons keyword _ [v]] at hof
    rw [codeItems, hof]
  obtain ⟨hg, hspine⟩ := Build.listWithTail_spine [keyword, v] .null t
  cases hw
  refine .of_chain (hspine.chain (by simp)) ?_ ?_ fun x hx => ?_
  · rintro x more ⟨⟩
    exact hunbound x _ rfl
  · rw [hcode]
    exact List.forall_mem_nil _
  · obtain ⟨-, -, head, heq⟩ := Renaming.Form.eq_quasiquote.mp hx
    cases heq
    exact hheaded.grow htree hg

theorem binding_leaves (hhead : headOf env items s = .binding) (htail : ∀ a, tail ≠ .pair a)
    (hunbound : ∀ x more, items = .symbol x :: more → Unbound env last x)
    (hws : ∀ w ∈ ws, t.Tree w ∧ t.Headed (Unbound env last) .code w)
    (h : (liftM (Build.listWithTail (items.take 2 ++ ws) tail) : Action Value) t = .ok w u) :
    u.Headed (Unbound env last) .code w := by
  obtain ⟨hof, hlength⟩ := headOf_binding hhead
  obtain ⟨head, target, body, rfl⟩ : ∃ head target body, items = head :: target :: body := by
    match items with
    | head :: target :: body => exact ⟨head, target, body, rfl⟩
  rw [Renaming.Head.ofItems_cons head _ ([target] ++ ws)] at hof
  refine relist_leaves [head, target] hws htail ?_ ?_ ?_ h
  · rintro x more ⟨⟩
    exact hunbound x _ rfl
  · have hdrop : codeItems ([head, target] ++ ws) = ws := codeItems_binding hof
    exact fun v hv => hdrop ▸ hv
  · intro hquasiquote
    rcases hof with hof | hof <;> cases hof.symm.trans hquasiquote

theorem other_leaves (hsplit : s.splitList? (.pair a) = some (items, tail))
    (hhead : headOf env items s = .other)
    (hname : ∀ name, s.transformer? name env.chain = last.transformer? name env.chain)
    (hstable : (Call.form (room + 1) (.pair a) s).Stable env)
    (hrow : items.mapM (expand env room) s = .ok ws t)
    (hws : ∀ w ∈ ws, t.Tree w ∧ t.Headed (Unbound env last) .code w)
    (h : (liftM (Build.listWithTail ws tail) : Action Value) t = .ok w u) :
    u.Headed (Unbound env last) .code w := by
  have hchain := Store.splitList?_eq_some.mp hsplit
  have hunused : ∀ m, headOf env items s ≠ .use m := by simp [hhead]
  -- A symbol at the head was there before or is what a list was expanded to.
  have hsymbol : ∀ x more, ws = .symbol x :: more → s.transformer? x.name env.chain = none ∧
      Renaming.Head.ofItems ws ≠ .quasiquote := by
    rintro x more rfl
    obtain ⟨head, rest, v, rfl, hx⟩ := mapM_head hrow
    cases head with
    | pair b =>
      obtain ⟨hnone, hquasiquote⟩ := hstable b rest tail x v hchain hx
      refine ⟨hnone, fun hof => ?_⟩
      obtain ⟨y, _, heq, -, hy⟩ := Renaming.Head.ofItems_quasiquote hof
      cases heq
      exact hquasiquote hy
    | symbol y =>
      rw [expand_leaf env room (by simp)] at hx
      cases hx
      exact ⟨headOf_unused hunused rfl, fun hof => ofItems_ne_quasiquote hunused (by simp [hhead])
        ((Renaming.Head.ofItems_cons _ _ _).trans hof)⟩
    | _ =>
      rw [expand_leaf env room (by simp)] at hx
      cases hx
  refine relist_leaves [] hws hchain.tail_ne_pair ?_ (fun _ => mem_of_codeItems) ?_ h
  · intro x more hx
    exact (hname x.name).symm.trans (hsymbol x more hx).1
  · intro hof
    obtain ⟨x, more, hx, -, -⟩ := Renaming.Head.ofItems_quasiquote hof
    exact (hsymbol x more hx).2 hof

end List

theorem list_leaves {a : Address} (hv : s.Tree (.pair a))
    (hname : ∀ name, s.transformer? name env.chain = last.transformer? name env.chain)
    (hstable : (Call.form (room + 1) (.pair a) s).Stable env)
    (ih : ∀ d, Calls env (.form (room + 1) (.pair a) s) d → d.Leaves env last)
    (hchain : s.Chain (.pair a) items tail) (hst : s.Grows t)
    (h : expand env (room + 1) (.pair a) s = .ok w t) (hlast : t.Expands last) :
    t.Headed (Unbound env last) .code w := by
  have hsplit := Store.splitList?_eq_some.mpr hchain
  -- A head that was not taken for a use names no transformer, then and in the last store.
  have hunbound : (∀ m, headOf env items s ≠ .use m) → ∀ x more, items = .symbol x :: more →
      Unbound env last x := fun hhead x more hitems =>
    (hname x.name).symm.trans (headOf_unused hhead hitems)
  have hquasiquote : (∀ m, headOf env items s ≠ .use m) → headOf env items s ≠ .quasiquote →
      ∀ w, Form.of items tail ≠ .quasiquote w := fun hunused hhead w hw =>
    ofItems_ne_quasiquote hunused hhead (Renaming.Form.eq_quasiquote.mp hw).1
  rw [expand_list hsplit] at h
  -- Where the list is handed on, its own head stands; else the calls below answer for it.
  cases hhead : headOf env items s with
  | use m =>
    rw [hhead] at h
    obtain ⟨w', s', hw', h⟩ := ok_of_bind h
    exact (ih _ (.use (.intro hsplit hhead hw')) w t h hlast).2
  | quote =>
    rw [hhead] at h
    cases h
    exact kept_leaves hv hst hchain (hunbound (by simp [hhead]))
      (codeItems_of_headOf (.inl hhead)) (hquasiquote (by simp [hhead]) (by simp [hhead]))
  | quasiquote =>
    rw [hhead] at h
    dsimp only at h
    split at h
    · obtain ⟨x, t', hx, h⟩ := ok_of_bind h
      have ht' := (Action.Expanding.lift (Build.expanding_list _)).of_ok h
      exact quasiquote_leaves hsplit hhead (hunbound (by simp [hhead])) ih hx h
        (ht'.trans hlast)
    · rename_i hother
      cases h
      refine kept_leaves hv hst hchain (hunbound (by simp [hhead]))
        (codeItems_of_headOf (.inr (.inl hhead))) fun w hw => ?_
      obtain ⟨-, rfl, keyword, rfl⟩ := Renaming.Form.eq_quasiquote.mp hw
      exact hother _ _ rfl rfl
  | binding =>
    rw [hhead] at h
    obtain ⟨ws, t', hws, h⟩ := ok_of_bind h
    have ht' := (Action.Expanding.lift (Build.expanding_listWithTail _ tail)).of_ok h
    have hrow := row_leaves hsplit ih (by rw [hhead]; exact hws) (ht'.trans hlast)
    exact binding_leaves hhead hchain.tail_ne_pair (hunbound (by simp [hhead])) hrow h
  | defineSyntax =>
    rw [hhead] at h
    obtain ⟨_, t', -, h⟩ := ok_of_bind h
    cases h
    exact kept_leaves hv hst hchain (hunbound (by simp [hhead]))
      (codeItems_of_headOf (.inr (.inr hhead))) (hquasiquote (by simp [hhead]) (by simp [hhead]))
  | letSyntax keyword =>
    rw [hhead] at h
    obtain ⟨w', s', hw', h⟩ := ok_of_bind h
    exact (ih _ (.body hsplit hhead hw') w t h hlast).2
  | other =>
    rw [hhead] at h
    obtain ⟨ws, t', hws, h⟩ := ok_of_bind h
    have ht' := (Action.Expanding.lift (Build.expanding_listWithTail ws tail)).of_ok h
    have hrow := row_leaves hsplit ih (by rw [hhead]; exact hws) (ht'.trans hlast)
    exact other_leaves hsplit hhead hname hstable hws hrow h

theorem form_leaves (hready : (Call.form room v s).Ready) (hfirst : first.Expands s)
    (hframes : last.frames = first.frames) (hstable : (Call.form room v s).Stable env)
    (ih : ∀ d, Calls env (.form room v s) d → d.Leaves env last) :
    (Call.form room v s).Leaves env last := by
  intro w t h hlast
  refine ⟨((Store.Tree.keeps_expand hready.compiled hready.tree).of_ok h).2, ?_⟩
  have hst : s.Expands t := ((expanding env room).1 v).of_ok h
  have hname := hfirst.transformer?_eq (hst.trans hlast) hframes
  by_cases hpair : ∃ a, v = .pair a
  · obtain ⟨a, rfl⟩ := hpair
    have hv : s.Tree (.pair a) := hready.tree
    cases room with
    | zero =>
      rw [expand_zero] at h
      cases h
    | succ room =>
      obtain ⟨items, tail, hchain⟩ := hv.chain
      exact list_leaves hv (fun name => hname name env.chain) hstable ih hchain hst.toGrows h hlast
  · rw [expand_leaf env room (not_exists.mp hpair)] at h
    cases h
    exact .atom (not_exists.mp hpair)

theorem operand_leaves {fuel : Nat} {keyword : QuasiKeyword} {operand : Value}
    (hform : s.quasiForm? v = some (keyword, operand))
    (ih : ∀ d, Calls env (.template room level v s) d → d.Leaves env last)
    (h : (if keyword = .quasiquote then expandTemplate env (room - 1) fuel (level + 1) operand
      else if level = 1 then expand env (room - 1) operand
      else expandTemplate env (room - 1) fuel (level - 1) operand) s = .ok w t)
    (hlast : t.Expands last) :
    t.Tree w ∧ t.Headed (Unbound env last) (.within keyword level) w := by
  have hinner : keyword = .quasiquote ∨ level ≠ 1 →
      expandTemplate env (room - 1) fuel (innerLevel keyword level) operand s = .ok w t →
        t.Tree w ∧ t.Headed (Unbound env last) (.template (innerLevel keyword level)) w := by
    intro hlevel h
    obtain ⟨htree, hheaded, -⟩ := ih _ (.inner hform hlevel) fuel w t h hlast
    exact ⟨htree, hheaded⟩
  unfold Role.within
  split_ifs at h ⊢ with hkeyword hlevel
  · simpa [innerLevel, hkeyword] using
      hinner (.inl hkeyword) (by simpa [innerLevel, hkeyword] using h)
  · subst hlevel
    exact ih _ (.code hform hkeyword) w t h hlast
  · simpa [innerLevel, hkeyword] using
      hinner (.inr hlevel) (by simpa [innerLevel, hkeyword] using h)

section Template

variable {fuel : Nat}

theorem quasiForm_leaves {keyword : QuasiKeyword} {operand : Value}
    (hform : s.quasiForm? v = some (keyword, operand))
    (ih : ∀ d, Calls env (.template room level v s) d → d.Leaves env last)
    (h : expandTemplate env room (fuel + 1) level v s = .ok w t) (hlast : t.Expands last) :
    t.Headed (Unbound env last) (.template level) w ∧ Shaped s t v w := by
  rw [expandTemplate_form hform] at h
  obtain ⟨x, t', hx, h⟩ := ok_of_bind h
  have ht' := (Action.Expanding.lift (Build.expanding_list _)).of_ok h
  obtain ⟨htree, hheaded⟩ := operand_leaves hform ih hx (ht'.trans hlast)
  obtain ⟨a, rfl⟩ := Store.quasiForm?_pair hform
  obtain ⟨hg, b, c, rfl, -, -, hcell, hcell'⟩ := Build.list_two (Action.lift_ok h)
  have hkeyword : t.quasiForm? (.pair b) = some (keyword, x) :=
    Store.quasiForm?_eq_some.mpr ⟨_, c, hcell, QuasiKeyword.ofSymbol?_name keyword, hcell'⟩
  refine ⟨.form hkeyword (hheaded.grow htree hg), .pairs a b, ?_⟩
  rintro _ _ - hb hnull
  cases hb
  rw [hcell] at hnull
  cases hnull

theorem pair_leaves {a : Address} (hv : s.Tree (.pair a)) (hform : s.quasiForm? (.pair a) = none)
    (ih : ∀ d, Calls env (.template room level (.pair a) s) d → d.Leaves env last)
    (h : expandTemplate env room (fuel + 1) level (.pair a) s = .ok w t) (hlast : t.Expands last) :
    t.Headed (Unbound env last) (.template level) w ∧ Shaped s t (.pair a) w := by
  rw [expandTemplate_pair hform] at h
  obtain ⟨car, t₁, hcar, h⟩ := ok_of_bind h
  obtain ⟨cdr, t₂, hcdr, h⟩ := ok_of_bind h
  have h₁ := ((expanding env (room - 1)).2 fuel level _).of_ok hcar
  have h₂ := ((expanding env room).2 fuel level _).of_ok hcdr
  have ht₂ := (Action.Expanding.lift (Build.expanding_cons _ _)).of_ok h
  obtain ⟨hcartree, hcarheaded, hcarshaped⟩ :=
    ih _ (.car hform) fuel car t₁ hcar ((h₂.trans ht₂).trans hlast)
  obtain ⟨hcdrtree, hcdrheaded, hcdrshaped⟩ :=
    ih _ (.cdr hform hcar) fuel cdr t₂ hcdr (ht₂.trans hlast)
  have hg := t₂.grows_push_pair ⟨car, cdr⟩
  have hcell := t₂.pairAt_push_size ⟨car, cdr⟩
  have hshaped := hcdrshaped.of_grows h₁.toGrows hv.cdr hg hcdrtree
  cases Action.lift_ok h
  refine ⟨.pair ?_ ?_ ?_, .pairs _ _, ?_⟩
  · refine quasiForm?_none_of_mirrors hform ?_ ?_ ?_ <;> rw [hcell]
    · exact hcarshaped.mirrors
    · exact hcdrshaped.mirrors
    · exact fun ha hb => hshaped.last ha hb
  · rw [hcell]
    exact hcarheaded.grow hcartree (h₂.toGrows.trans hg)
  · rw [hcell]
    exact hcdrheaded.grow hcdrtree hg
  · rintro _ _ ⟨⟩ ⟨⟩ hnull
    rw [hcell] at hnull
    exact hcdrshaped.mirrors.null hnull

theorem vector_leaves {a : Address}
    (ih : ∀ d, Calls env (.template room level (.vector a) s) d → d.Leaves env last)
    (h : expandTemplate env room (fuel + 1) level (.vector a) s = .ok w t)
    (hlast : t.Expands last) :
    t.Headed (Unbound env last) (.template level) w ∧ Shaped s t (.vector a) w := by
  rw [expandTemplate_vector] at h
  obtain ⟨ws, t', hws, h⟩ := ok_of_bind h
  have ht' := (Action.Expanding.lift (Build.expanding_vector _)).of_ok h
  have hall := Action.Expanding.mapM_after
    (Q := fun t _ w => t.Tree w ∧ t.Headed (Unbound env last) (.template level) w)
    ((expanding env (room - 1)).2 fuel level)
    (fun hst hw => ⟨hw.1.grow hst.toGrows, hw.2.grow hw.1 hst.toGrows⟩) hws
    fun before w after done s' r t'' hitems hdone hr ht'' => by
      obtain ⟨htree, hheaded, -⟩ := ih _ (.vectorItem hitems hdone) fuel r t'' hr
        ((ht''.trans ht').trans hlast)
      exact ⟨htree, hheaded⟩
  have hg := t'.grows_push_vector ws.toArray
  cases Action.lift_ok h
  refine ⟨.vector ?_, .vectors a _, nofun⟩
  rw [Store.vectorAt_push_size]
  intro w hw
  obtain ⟨v, -, htree, hheaded⟩ := SyntaxRules.exists_of_mem_right hall hw
  exact hheaded.grow htree hg

end Template

theorem template_leaves (hready : (Call.template room level v s).Ready)
    (ih : ∀ d, Calls env (.template room level v s) d → d.Leaves env last) :
    (Call.template room level v s).Leaves env last := by
  intro fuel w t h hlast
  refine ⟨((Store.Tree.keeps_expandTemplate hready.compiled hready.tree).of_ok h).2, ?_⟩
  cases fuel with
  | zero =>
    rw [expandTemplate_zero] at h
    cases h
  | succ fuel =>
    cases hform : s.quasiForm? v with
    | some form => exact quasiForm_leaves hform ih h hlast
    | none =>
      cases v with
      | pair a => exact pair_leaves hready.tree hform ih h hlast
      | vector a => exact vector_leaves ih h hlast
      | _ =>
        rw [expandTemplate_leaf (by simp) (by simp)] at h
        cases h
        exact ⟨.leaf (by simp) (by simp), .refl _, by simp⟩

theorem Call.Leaves.of_calls {c : Call} (hready : c.Ready) (hfirst : first.Expands c.store)
    (hframes : last.frames = first.frames) (hstable : c.Stable env)
    (ih : ∀ d, Calls env c d → d.Leaves env last) : c.Leaves env last := by
  cases c with
  | form room v s => exact form_leaves hready hfirst hframes hstable ih
  | template room level v s => exact template_leaves hready ih

theorem Call.Ready.leaves {c : Call} (hready : c.Ready) (hfirst : first.Expands c.store)
    (hframes : last.frames = first.frames)
    (hstable : ∀ d, Relation.ReflTransGen (Calls env) c d → d.Stable env) : c.Leaves env last := by
  have hfinishes : Finishes env c := hready.finishes
  induction hfinishes with
  | intro c _ ih =>
    refine .of_calls hready hfirst hframes (hstable c .refl) fun d hd => ?_
    -- A call starts from a store that comes after that of its caller, so `hfirst` passes down.
    have hkept := hd.keeps (D := Store.Expands.discipline) trivial trivial trivial
    exact ih d hd (hd.ready hready) (hfirst.trans hkept.1.2) fun e he => hstable e (.head hd he)

/-- Nowhere in the expansion of the form is the head of a list a list that is expanded to the name
of a transformer or to `quasiquote`. -/
def StableHeads (env : Environment) (s : Store) (v : Value) : Prop :=
  ∀ c, Relation.ReflTransGen (Calls env) (.start v s) c → c.Stable env

/-- If the heads of lists are stable and no transformer is installed, no list in a code position of
the expanded form has the name of a transformer as its head. -/
theorem expandToplevel_headed (hs : s.Compiled) (hv : s.Form v) (hstable : StableHeads env s v)
    (h : expandToplevel env v s = .ok r t) (hframes : t.frames = s.frames) :
    t.Headed (Unbound env t) .code r := by
  rw [expandToplevel_eq] at h
  obtain ⟨w, u, hw, h⟩ := ok_of_bind h
  have hstarted : s.Expands (started s) := .of_grows (.of_cells_eq rfl rfl) rfl rfl rfl
  have hready : (Call.start v s).Ready := ⟨hs.of_frames rfl, hv.tree.grow hstarted.toGrows⟩
  have hkeeps : Store.Form.discipline.Expands env (maxDepth + 1) :=
    (ExpansionDiscipline.expands trivial _).1
  have hform : u.Form w :=
    ((hkeeps hready.compiled (hv.grow hstarted.toGrows)).of_ok hw).2
  have hut := (Renaming.expanding_renameIntroduced w).of_ok h
  obtain ⟨-, hheaded⟩ := hready.leaves hstarted hframes hstable w u hw hut
  exact hheaded.sheds hform (Renaming.renameIntroduced_sheds hform h) fun x hx => hx

theorem Calls.of_use {a : Address} {m : Transformer} {d : Call}
    (h : Calls env (.form (room + 1) (.pair a) s) d)
    (hsplit : s.splitList? (.pair a) = some (items, tail)) (hhead : headOf env items s = .use m) :
    ∃ w t, transcribe env m (.pair a) s = .ok w t ∧ d = .form room w t := by
  cases h with
  | use h =>
    cases h with
    | intro hsplit' hhead' h =>
      cases hsplit.symm.trans hsplit'
      cases hhead.symm.trans hhead'
      exact ⟨_, _, h, rfl⟩
  | body hsplit' hhead' | quasiquote hsplit' hhead' =>
    cases hsplit.symm.trans hsplit'
    cases hhead.symm.trans hhead'
  | item hsplit' hitems =>
    cases hsplit.symm.trans hsplit'
    rw [hhead] at hitems
    cases List.append_ne_nil_of_right_ne_nil _ (List.cons_ne_nil _ _) hitems.symm

theorem Calls.of_other {a : Address} {d : Call} (h : Calls env (.form (room + 1) (.pair a) s) d)
    (hsplit : s.splitList? (.pair a) = some (items, tail)) (hhead : headOf env items s = .other) :
    ∃ before w after ws t, items = before ++ w :: after ∧
      before.mapM (expand env room) s = .ok ws t ∧ d = .form room w t := by
  cases h with
  | use h =>
    cases h with
    | intro hsplit' hhead' _ =>
      cases hsplit.symm.trans hsplit'
      cases hhead.symm.trans hhead'
  | body hsplit' hhead' | quasiquote hsplit' hhead' =>
    cases hsplit.symm.trans hsplit'
    cases hhead.symm.trans hhead'
  | item hsplit' hitems h =>
    cases hsplit.symm.trans hsplit'
    rw [hhead] at hitems
    exact ⟨_, _, _, _, _, hitems, h, rfl⟩

end Expansion

/-! A list at the head of a list, which is replaced by a name. -/

namespace Naming

open Expansion

/-- `(syntax-rules () ((_) name))` -/
def transformer (name : String) : Transformer where
  name := "m"
  literals := []
  rules := [{
    number := 1
    pattern := .list (.item .wildcard .done)
    template := .free (.user name)
    depths := [] }]

/-- Holds `((m) x)`, where `m` and `k` are transformers. -/
def store (name : String) : Store :=
  { Store.empty with
    pairs := #[⟨.name "m", .null⟩, ⟨.name "x", .null⟩, ⟨.pair 0, .pair 1⟩]
    frames := #[⟨[], [("m", transformer name), ("k", ⟨"k", [], []⟩)]⟩] }

theorem split_store (name : String) :
    (started (store name)).splitList? (.pair 2) = some ([.pair 0, .name "x"], .null) := rfl

theorem split_use (name : String) :
    (started (store name)).splitList? (.pair 0) = some ([.name "m"], .null) := rfl

def used (name : String) : Store := { started (store name) with uses := 1 }

/-- Holds the list of the symbol and `x` as well. -/
def expanded (name : String) (x : Symbol) : Store :=
  { used name with pairs := (store name).pairs ++ #[⟨.name "x", .null⟩, ⟨.symbol x, .pair 3⟩] }

section

variable {name : String} {x : Symbol} (h : transcribe ⟨0, []⟩ (transformer name) (.pair 0)
  (started (store name)) = .ok (.symbol x) (used name))

include h

theorem expand_head :
    expand ⟨0, []⟩ maxDepth (.pair 0) (started (store name)) = .ok (.symbol x) (used name) := by
  rw [maxDepth, expand_list (split_use name)]
  change (transcribe ⟨0, []⟩ (transformer name) (.pair 0) >>= expand ⟨0, []⟩ 255)
    (started (store name)) = _
  rw [Action.bind_ok h, expand_leaf _ _ (by simp)]
  rfl

theorem expand_form : expand ⟨0, []⟩ (maxDepth + 1) (.pair 2) (started (store name)) =
    .ok (.pair 4) (expanded name x) := by
  have hitems : [.pair 0, .name "x"].mapM (expand ⟨0, []⟩ maxDepth) (started (store name)) =
      .ok [.symbol x, .name "x"] (used name) := by
    rw [List.mapM_cons, Action.bind_ok (expand_head h), List.mapM_cons,
      expand_leaf _ _ (by simp [Value.name])]
    rfl
  rw [expand_list (split_store name)]
  change ([.pair 0, .name "x"].mapM (expand ⟨0, []⟩ maxDepth) >>= fun items =>
    liftM (Build.listWithTail items .null) : Action Value) _ = _
  rw [Action.bind_ok hitems]
  rfl

end

theorem transcribe_k : transcribe ⟨0, []⟩ (transformer "k") (.pair 0) (started (store "k")) =
    .ok (.name "k") (used "k") := rfl

theorem transcribe_f : transcribe ⟨0, []⟩ (transformer "f") (.pair 0) (started (store "f")) =
    .ok (.symbol ((Symbol.user "f").stamp 1 0)) (used "f") := rfl

theorem expand_k : expandToplevel ⟨0, []⟩ (.pair 2) (store "k") =
    .ok (.pair 4) (expanded "k" (.user "k")) := by
  rw [expandToplevel_eq, Action.bind_ok (expand_form transcribe_k)]
  rfl

theorem expand_f : ∃ r t, expandToplevel ⟨0, []⟩ (.pair 2) (store "f") = .ok r t ∧
    t.frames = (store "f").frames := by
  rw [expandToplevel_eq, Action.bind_ok (expand_form transcribe_f)]
  exact ⟨_, _, rfl, rfl⟩

theorem compiled_store (name : String) : (store name).Compiled := by
  intro f m hm
  have hm : m = ("m", transformer name) ∨ m = ("k", ⟨"k", [], []⟩) := by
    cases f with
    | zero => simpa [store, Store.frameAt] using hm
    | succ f => simp [store, Store.frameAt] at hm
  rcases hm with rfl | rfl
  · simp [transformer, Transformer.constants, Pattern.constants, PatternSeq.constants,
      Template.constants]
  · simp [Transformer.constants]

theorem form_store (name : String) : (store name).Form (.pair 2) := by
  have hname : ∀ x : String, (store name).Form (.name x) := Store.form_name
  have hnull : (store name).Form .null := Store.form_constant rfl
  have huse : (store name).Form (.pair 0) := .pair (by simp [store]) (hname _) hnull
  exact .pair (by simp [store]) huse (.pair (by simp [store]) (hname _) hnull)

theorem reached_start {name : String} {x : Symbol} (h : transcribe ⟨0, []⟩ (transformer name)
    (.pair 0) (started (store name)) = .ok (.symbol x) (used name)) {c : Call}
    (hc : Relation.ReflTransGen (Calls ⟨0, []⟩) (.start (.pair 2) (store name)) c) :
    c = .start (.pair 2) (store name) ∨ c = .form maxDepth (.pair 0) (started (store name)) ∨
      ∃ room y s, c = .form room (.symbol y) s := by
  induction hc with
  | refl => exact .inl rfl
  | tail _ hcall ih =>
    rcases ih with rfl | rfl | ⟨room, y, s, rfl⟩
    · obtain ⟨before, w, after, ws, t, hitems, hbefore, rfl⟩ :=
        hcall.of_other (split_store name) rfl
      match before with
      | [] =>
        cases hitems
        cases hbefore
        exact .inr (.inl rfl)
      | [head] =>
        cases hitems
        exact .inr (.inr ⟨_, _, _, rfl⟩)
      | _ :: _ :: _ :: _ => cases hitems
    · have hhead :
          headOf ⟨0, []⟩ [.name "m"] (started (store name)) = .use (transformer name) := rfl
      obtain ⟨w, t, hw, rfl⟩ := hcall.of_use (split_use name) hhead
      cases h.symm.trans hw
      exact .inr (.inr ⟨_, x, _, rfl⟩)
    · cases hcall with
      | use h => cases h

theorem stable_f : StableHeads ⟨0, []⟩ (store "f") (.pair 2) := by
  intro c hc
  rcases reached_start transcribe_f hc with rfl | rfl | ⟨room, y, s, rfl⟩
  · intro b more tail x t hchain hx
    cases (hchain.unique (Store.splitList?_eq_some.mp (split_store "f"))).1
    cases (expand_head transcribe_f).symm.trans hx
    exact ⟨rfl, by decide⟩
  · intro b more tail x t hchain
    cases (hchain.unique (Store.splitList?_eq_some.mp (split_use "f"))).1
  · cases room with
    | zero => trivial
    | succ room =>
      intro b more tail x t hchain
      cases hchain

end Naming

/-- The heads of the lists that are expanded must be stable: `((m) x)` is expanded to `(k x)`, where
`k` is a transformer. -/
theorem expandToplevel_unheaded :
    (Naming.store "k").Compiled ∧ (Naming.store "k").Form (.pair 2) ∧
      Expansion.expandToplevel ⟨0, []⟩ (.pair 2) (Naming.store "k") =
        .ok (.pair 4) (Naming.expanded "k" (.user "k")) ∧
      (Naming.expanded "k" (.user "k")).frames = (Naming.store "k").frames ∧
      ¬ (Naming.expanded "k" (.user "k")).Headed
        (Expansion.Unbound ⟨0, []⟩ (Naming.expanded "k" (.user "k"))) .code (.pair 4) := by
  refine ⟨Naming.compiled_store "k", Naming.form_store "k", Naming.expand_k, rfl, fun h => ?_⟩
  cases h with
  | atom hp => exact hp 4 rfl
  | list hchain hhead _ _ =>
    have hitems : (Naming.expanded "k" (.user "k")).Chain (.pair 4) [.name "k", .name "x"] .null :=
      Store.splitList?_eq_some.mp rfl
    obtain ⟨rfl, rfl⟩ := hchain.unique hitems
    exact nomatch hhead (.user "k") _ rfl

theorem expandToplevel_headed_called :
    (Naming.store "f").Compiled ∧ (Naming.store "f").Form (.pair 2) ∧
      Expansion.StableHeads ⟨0, []⟩ (Naming.store "f") (.pair 2) ∧
      ∃ r t, Expansion.expandToplevel ⟨0, []⟩ (.pair 2) (Naming.store "f") = .ok r t ∧
        t.frames = (Naming.store "f").frames ∧
        t.Headed (Expansion.Unbound ⟨0, []⟩ t) .code r := by
  obtain ⟨r, t, h, hframes⟩ := Naming.expand_f
  exact ⟨Naming.compiled_store "f", Naming.form_store "f", Naming.stable_f, r, t, h, hframes,
    Expansion.expandToplevel_headed (Naming.compiled_store "f") (Naming.form_store "f")
      Naming.stable_f h hframes⟩

end HygienicScheme
