import HygienicScheme.Proofs.Derived.Expanding
import HygienicScheme.Proofs.Derived.Transformers
import HygienicScheme.Proofs.SyntaxRules.Uses

/-!
# Uses of derived forms

A use of a derived form is replaced by what the template of its first rule that matches is drawn to.
-/
namespace HygienicScheme

open Expansion (expand transcribe headOf firstMatch? maxUses)

namespace Store

variable {s t : Store} {v tail : Value} {vs : List Value}

theorem properList?_grows (hs : s.All s.Known) (hv : s.Known v) (hst : s.Grows t) :
    t.properList? v = s.properList? v := by
  rw [properList?, properList?, splitList?_grows (fun a ha => ⟨ha, hs.cdr a⟩) hv hst]

theorem Safe.items {own : Reserve} (hs : s.Safe own) (hv : s.Guest own v)
    (h : s.properList? v = some vs) : ∀ w ∈ vs, s.Guest own w := by
  have hchain := properList?_eq_some.mp h
  have hapart := ((secluding own).chain hs.secludes hv.apart hchain).1
  have hknown := (knowing.chain hs.known hv.known hchain).1
  exact fun w hw => ⟨hknown w hw, hapart w hw⟩

end Store

namespace Derived

open Store MacroUse

variable {env : Environment} {last s t u : Store} {own more : Reserve} {v w : Value}
  {H T U : Sketch} {Ts Us : List Sketch} {P : Sketch → Prop} {room : Nat} {vs : List Value}
  {x : Symbol} {m : Transformer}

@[simp] theorem whole_done : PatternSeq.done.Whole := trivial

@[simp] theorem whole_bindsAll {name : String} : (bindsAll name).Whole := trivial

@[simp] theorem matches_binds {name : String} :
    (SyntaxRules.matchPattern s (binds name) v).toOption = some [(.user name, .one v)] := rfl

@[simp] theorem matchProper_bindsAll {name : String} :
    SyntaxRules.matchProper s (bindsAll name) vs = some [(.user name, .many (vs.map .one))] :=
  SyntaxRules.matchProper_variables

@[simp] theorem matches_expects {name : String} :
    (SyntaxRules.matchPattern s (expects name) v).toOption =
      if v.isNamed name then some [] else none := SyntaxRules.matches_literal

@[simp] theorem matches_repeated {p : Pattern} :
    (SyntaxRules.matchPattern s (.list (.repeated p .done)) v).toOption =
      (s.properList? v).bind (SyntaxRules.matchProper s (.repeated p .done)) :=
  SyntaxRules.matchPattern_proper trivial

@[simp] theorem matches_pattern {items : List Pattern} {rest : PatternSeq} (hrest : rest.Whole) :
    (SyntaxRules.matchPattern s (pattern items rest) v).toOption =
      (s.properList? v).bind (SyntaxRules.matchProper s (items.foldr .item rest)) := by
  refine SyntaxRules.matchPattern_proper ?_
  induction items with
  | nil => exact hrest
  | cons p items ih => exact ih

def Reads (own : Reserve) (s : Store) (T : Sketch) (Ts : List Sketch) : Prop :=
  ∀ ⦃t more v⦄, s.Adds own t more → t.Looks more v T →
    ∃ vs, t.properList? v = some vs ∧ t.LookAll more vs Ts

theorem reads_list : Reads own s (.list Ts) Ts := by
  intro t more v _ hlooks
  obtain ⟨vs, hchain, hvs⟩ := hlooks.chain
  exact ⟨vs, Store.properList?_eq_some.mpr hchain, hvs⟩

theorem reads_null : Reads own s (.atom .null) [] := by
  intro t more v _ hlooks
  obtain rfl := hlooks.eq_of_atom
  exact ⟨[], Store.properList?_nil.mpr rfl, .nil⟩

theorem reads_part (hs : s.Safe own) (hv : s.Guest own v) (h : s.properList? v = some vs) :
    Reads own s (.part v) (vs.map .part) := by
  intro t more v' hst hlooks
  obtain rfl := hlooks.eq_of_part
  have hproper := (properList?_grows hs.known hv.known hst.expands.toGrows).trans h
  refine ⟨vs, hproper, ?_⟩
  rw [LookAll, List.forall₂_map_right_iff, List.forall₂_same]
  exact fun w hw => .part (hst.safe.items hlooks.guest hproper w hw)

structure Standing (env : Environment) (last s : Store) : Prop where
  form : ∀ m ∈ forms, ∀ t, s.Expands t → t.Expands last → t.transformer? m.name env.chain = some m
  core : ∀ name, isCoreKeyword name → last.transformer? name env.chain = none
  phase : last.phase ≤ s.phase
  uses : last.uses < maxUses

namespace Standing

variable {use : MacroUse} (h : Standing env last s)

include h

theorem later (hst : s.Adds own t more) : Standing env last t where
  form m hm u htu := h.form m hm u (hst.expands.trans htu)
  core := h.core
  phase := by
    have hphase := h.phase
    have hcounters := hst.outgrows.counters
    omega
  uses := h.uses

theorem uses_lt (hlast : s.Precedes last) : s.uses < maxUses := by
  have hphase := h.phase
  have huses := h.uses
  have hcounters := hlast.counters
  omega

theorem introduce_form (hm : m ∈ forms) (henv : use.env = env) (hlast : s.Expands last) :
    introduce use s (.user m.name) = .user m.name := by
  unfold introduce
  rw [if_pos]
  · rfl
  · simp [Store.isKeyword, Symbol.user, henv, h.form m hm s (.refl s) hlast]

end Standing

theorem introduce_core {use : MacroUse} {name : String} (hname : isCoreKeyword name) :
    introduce use s (.user name) = .user name := by
  unfold introduce
  rw [if_pos]
  · rfl
  · simp [Store.isKeyword, Symbol.user, hname]

theorem introduce_fresh {use : MacroUse} {name : String} (hcore : isCoreKeyword name = false)
    (hliteral : use.transformer.isLiteral (.user name) = false) (henv : use.env = env)
    (hname : last.transformer? name env.chain = none) (hlast : s.Expands last) :
    introduce use s (.user name) = ⟨name, use.phase, use.index⟩ := by
  unfold introduce
  rw [if_neg]
  · rfl
  · have hnone := hlast.transformer?_eq_none hname
    have hkeyword : s.isKeyword use.env (.user name) = false := by
      simp [Store.isKeyword, Symbol.user, hcore, henv, hnone]
    simp [hliteral, hkeyword]

theorem stamped_of_use {name : String} {phase index : Nat} :
    (⟨name, phase, index⟩ : Symbol).isStamped = true := by
  simp [Symbol.isStamped, Symbol.userPhase]

theorem constants_forms {m : Transformer} (hm : m ∈ forms) :
    ∀ c ∈ m.constants, c.isConstant ∧ ∀ a, c ≠ .closure a := by
  have hall : ∀ m ∈ forms, ∀ c ∈ m.constants, c = .bool false ∨ c = .null ∨
    ∃ id, c = stepMark id := by
    simp [forms, letForm, letrecForm, condForm, caseForm, doForm, template, puts, putsAll, brings,
      bringsFalse, bringsNull, nested, unspecifiedForm, resultsForm, clausesForm, tempForm,
      memberForm, pattern, binds, bindsAll, expects, Template.constants, TemplateSeq.constants,
      Pattern.constants, PatternSeq.constants, Transformer.constants]
    grind
  intro c hc
  rcases hall m hm c hc with rfl | rfl | ⟨id, rfl⟩ <;> exact ⟨rfl, nofun⟩

/-- A use that takes this rule is replaced by what its template is drawn to. Its stamp is then in
the reserve. -/
theorem transcribed {r : Rule} {bs : Bindings} {fs : Figures} (hm : m ∈ forms)
    (h : transcribe env m v s = .ok w t) (hsafe : s.Safe own) (huses : s.uses < maxUses)
    (hfound : firstMatch? s v m.rules = some (r, bs)) (hfits : s.FitsEach own bs fs)
    (hdraw : r.template.draw (introduce ⟨m, env, s.phase, s.uses⟩ s) fs = some T) :
    ∃ more, s.Adds own t more ∧ more.stamps s.phase s.uses ∧ t.Looks more w T := by
  rw [Expansion.transcribe_found hfound] at h
  obtain ⟨use, s₁, hnext, h⟩ := Action.ok_of_bind h
  cases hnext
  have hstamped := hsafe.secludes.withStamp hsafe.known huses
  have hadds : s.Adds own { s with uses := min (s.uses + 1) maxUses }
      (own.withStamp s.phase s.uses) := ⟨hstamped, .of_grows (.of_cells_eq rfl rfl) rfl rfl rfl⟩
  have hframes : ({ s with uses := min (s.uses + 1) maxUses } : Store).frames = s.frames := rfl
  have hconstants : ∀ c ∈ r.template.constants, c.isConstant ∧ ∀ a, c ≠ .closure a := fun c hc =>
    constants_forms hm c (List.mem_flatMap.mpr ⟨r, (Expansion.firstMatch?_mem hfound).1,
      List.mem_append_right _ hc⟩)
  obtain ⟨-, more, hmore, hlooks⟩ := draws_transcribe (u := ⟨m, env, s.phase, s.uses⟩) (s := s)
    r.template hconstants hframes hadds.safe (.inl ⟨rfl, rfl⟩) (fitsEach_reserves hfits hstamped)
      hdraw h
  exact ⟨more, hadds.trans hmore, hmore.le.stamps _ _ (.inl ⟨rfl, rfl⟩), hlooks⟩

def Replaces (env : Environment) (last : Store) (m : Transformer) (s : Store) (own : Reserve)
    (v : Value) (P : Sketch → Prop) : Prop :=
  ∀ r bs, firstMatch? s v m.rules = some (r, bs) → s.Expands last →
    ∃ fs T, s.FitsEach own bs fs ∧
      r.template.draw (introduce ⟨m, env, s.phase, s.uses⟩ s) fs = some T ∧
      ∀ ⦃t more⦄, s.Adds own t more → more.stamps s.phase s.uses → Drafts env last more t T P

theorem Replaces.mono {Q : Sketch → Prop} (h : Replaces env last m s own v P)
    (hPQ : ∀ U, P U → Q U) : Replaces env last m s own v Q := by
  intro r bs hfound hlast
  obtain ⟨fs, T, hfits, hdraw, hdrafts⟩ := h r bs hfound hlast
  exact ⟨fs, T, hfits, hdraw, fun t more hst hstamps => (hdrafts hst hstamps).mono hPQ⟩

def Rewrites (env : Environment) (last : Store) (m : Transformer) (s : Store) (own : Reserve)
    (v : Value) (P : Sketch → Prop) : Prop :=
  ∀ w t, transcribe env m v s = .ok w t → s.uses < maxUses → s.Expands last →
    ∃ more T, s.Adds own t more ∧ t.Looks more w T ∧ Drafts env last more t T P

theorem Replaces.rewrites (h : Replaces env last m s own v P) (hm : m ∈ forms) (hs : s.Safe own) :
    Rewrites env last m s own v P := by
  intro w t htranscribe huses hlast
  cases hfound : firstMatch? s v m.rules with
  | none =>
    rw [Expansion.transcribe_eq, hfound] at htranscribe
    cases htranscribe
  | some found =>
    obtain ⟨r, bs⟩ := found
    obtain ⟨fs, T, hfits, hdraw, hdrafts⟩ := h r bs hfound hlast
    obtain ⟨more, hadds, hstamps, hlooks⟩ := transcribed hm htranscribe hs huses hfound hfits hdraw
    exact ⟨more, T, hadds, hlooks, hdrafts hadds hstamps⟩

theorem Drafts.rewritten (hstanding : Standing env last s) (hm : m ∈ forms)
    (hreads : Reads own s T (H :: Ts)) (hH : H = .atom (.symbol x) ∨ H = .part (.symbol x))
    (hx : x.name = m.name)
    (h : ∀ ⦃t more v vs⦄, s.Adds own t more → t.properList? v = some (.symbol x :: vs) →
      t.LookAll more vs Ts → Rewrites env last m t more v P) :
    Drafts env last own s T P := by
  intro t more v room w u hst hlooks hexpand hlast
  obtain ⟨vs, hproper, hvs⟩ := hreads hst hlooks
  cases hvs with
  | @cons head _ vs _ hhead hvs =>
    obtain rfl : head = .symbol x := by
      rcases hH with rfl | rfl
      · exact hhead.eq_of_atom
      · exact hhead.eq_of_part
    have hchain := Store.properList?_eq_some.mp hproper
    obtain ⟨a, rfl⟩ : ∃ a, v = .pair a := by
      by_contra hnone
      cases (hchain.eq_nil (not_exists.mp hnone)).1
    cases room with
    | zero =>
      rw [Expansion.expand_zero] at hexpand
      cases hexpand
    | succ room =>
      have hexpands := ((Expansion.expanding env (room + 1)).1 (.pair a)).of_ok hexpand
      have hmeans := hstanding.form m hm t hst.expands (hexpands.trans hlast.expands)
      have hhead : headOf env (.symbol x :: vs) t = .use m := by
        simp only [headOf, hx, hmeans]
      rw [Expansion.expand_list (Store.splitList?_eq_some.mpr hchain), hhead] at hexpand
      obtain ⟨v', t₁, htranscribe, hexpand⟩ := Action.ok_of_bind hexpand
      have hprecedes : t₁.Precedes u := (((ExpansionDiscipline.expands (D := preceding) trivial
        room).1 trivial trivial).of_ok hexpand).1.2
      have hfirst : t.Precedes t₁ := ((ExpansionDiscipline.keeps_use (D := preceding) trivial hmeans
        trivial).of_ok htranscribe).1.2
      have hbefore := hfirst.trans (hprecedes.trans hlast)
      obtain ⟨most, T', hadds, hlooks', hdrafts⟩ := h hst hproper hvs v' t₁ htranscribe
        ((hstanding.later hst).uses_lt hbefore) hbefore.expands
      obtain ⟨most', U, hadds', hU, hP⟩ := hdrafts (.refl hadds.safe) hlooks' hexpand hlast
      exact ⟨most', U, hadds.trans hadds', hU, hP⟩

theorem Drafts.use (hstanding : Standing env last s) (hm : m ∈ forms)
    (hreads : Reads own s T (H :: Ts)) (hH : H = .atom (.symbol x) ∨ H = .part (.symbol x))
    (hx : x.name = m.name)
    (h : ∀ ⦃t more v vs⦄, s.Adds own t more → t.properList? v = some (.symbol x :: vs) →
      t.LookAll more vs Ts → Replaces env last m t more v P) :
    Drafts env last own s T P :=
  .rewritten hstanding hm hreads hH hx fun _ _ _ _ hst hproper hvs =>
    (h hst hproper hvs).rewrites hm hst.safe

inductive DrawnTo (introduced : Symbol → Symbol) (fs : Figures) :
    List (Template × Nat) → List Sketch → Prop
  | nil : DrawnTo introduced fs [] []
  | one {p : Template} {T : Sketch} {items : List (Template × Nat)} {Ts : List Sketch}
      (h : p.draw introduced fs = some T) (hmore : DrawnTo introduced fs items Ts) :
      DrawnTo introduced fs ((p, 0) :: items) (T :: Ts)
  | many {p : Template} {Us : List Sketch} {items : List (Template × Nat)} {Ts : List Sketch}
      (h : Figures.repeated p.vars (p.draw introduced) 1 fs = some Us)
      (hmore : DrawnTo introduced fs items Ts) :
      DrawnTo introduced fs ((p, 1) :: items) (Us ++ Ts)

theorem draw_template {introduced : Symbol → Symbol} {fs : Figures} {items : List (Template × Nat)}
    (h : DrawnTo introduced fs items Ts) :
      (template items).draw introduced fs = some (.list Ts) := by
  have hitems : TemplateSeq.draw introduced
      (items.foldr (fun item more => .item item.1 item.2 more) .done) fs = some Ts := by
    induction h with
    | nil => rfl
    | one hone _ ih =>
      rw [List.foldr_cons, TemplateSeq.draw, ih, Figures.repeated, hone]
      rfl
    | many hmany _ ih =>
      rw [List.foldr_cons, TemplateSeq.draw, ih, hmany]
      rfl
  rw [template, Template.draw, hitems]
  rfl

namespace DrawnTo

variable {introduced : Symbol → Symbol} {fs : Figures} {items parts : List (Template × Nat)}
  {name : String}

theorem variable_one (h : fs.lookup (.user name) = some (.one T))
    (hmore : DrawnTo introduced fs items Ts) : DrawnTo introduced fs (puts name :: items)
      (T :: Ts) := by
  refine .one ?_ hmore
  rw [Template.draw, h]

theorem variable_many (h : fs.lookup (.user name) = some (.many (Us.map .one)))
    (hmore : DrawnTo introduced fs items Ts) :
    DrawnTo introduced fs (putsAll name :: items) (Us ++ Ts) :=
  .many (Figures.repeated_variable h) hmore

theorem variable_last (h : fs.lookup (.user name) = some (.many (Us.map .one))) :
    DrawnTo introduced fs [putsAll name] Us := by
  have hdrawn : DrawnTo introduced fs [putsAll name] (Us ++ []) := variable_many h .nil
  rwa [List.append_nil] at hdrawn

theorem list (h : DrawnTo introduced fs parts Us) (hmore : DrawnTo introduced fs items Ts) :
    DrawnTo introduced fs (nested parts :: items) (.list Us :: Ts) := .one (draw_template h) hmore

theorem constant (hmore : DrawnTo introduced fs items Ts) :
    DrawnTo introduced fs ((.constant v, 0) :: items) (.atom v :: Ts) := .one rfl hmore

theorem identifier {x : Symbol} (hx : introduced (.user name) = x)
    (hmore : DrawnTo introduced fs items Ts) :
    DrawnTo introduced fs (brings name :: items) (.atom (.symbol x) :: Ts) := by
  refine .one ?_ hmore
  rw [Template.draw, hx]

theorem core {use : MacroUse} (hname : isCoreKeyword name)
    (hmore : DrawnTo (introduce use s) fs items Ts) :
    DrawnTo (introduce use s) fs (brings name :: items) (.atom (.name name) :: Ts) :=
  identifier (introduce_core hname) hmore

end DrawnTo

end Derived

end HygienicScheme
