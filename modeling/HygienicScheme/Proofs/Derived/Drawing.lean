import HygienicScheme.Proofs.Expansion.Effects
import HygienicScheme.Proofs.Store.Secluded
import HygienicScheme.Proofs.SyntaxRules.Filled

/-!
# Drawing templates

What a template comes to is sketched from the sketches of what its variables are bound to. This
follows the transcription step by step, without a store: a list of the template is a list that the
expansion makes, an identifier that the template brings is an atom, and where a variable stands the
sketch has what the variable is bound to.

The code that a derived form stands for is lists that the expansion makes, with atoms of its own and
with code of the user's in them. A sketch tells one from the other. As long as the lists are in the
reserve they read as the sketch, whatever the user's code does.
-/
namespace HygienicScheme

/-! ### Sketches of code -/

inductive Sketch
  /-- A constant or an identifier that the expansion puts there. -/
  | atom (v : Value)
  /-- Code of the user's. -/
  | part (v : Value)
  | list (items : List Sketch)

namespace Store

mutual

inductive Looks (s : Store) (own : Reserve) : Value → Sketch → Prop
  | atom {v : Value} (hatom : ∀ a, v ≠ .pair a) (hv : s.Known v) (hmark : own.Marks v) :
      Looks s own v (.atom v)
  | part {v : Value} (hv : s.Guest own v) : Looks s own v (.part v)
  | list {v : Value} {Ts : List Sketch} (h : LooksAll s own v Ts) : Looks s own v (.list Ts)

inductive LooksAll (s : Store) (own : Reserve) : Value → List Sketch → Prop
  | nil : LooksAll s own .null []
  | cons {a : Address} {T : Sketch} {Ts : List Sketch} (ha : own.pairs a)
      (hcar : Looks s own (s.pairAt a).car T) (hcdr : LooksAll s own (s.pairAt a).cdr Ts) :
      LooksAll s own (.pair a) (T :: Ts)

end

variable {s t : Store} {own more : Reserve}

mutual

theorem Looks.reserves : ∀ {v : Value} {T : Sketch}, s.Looks own v T → s.Reserves own t more →
    t.Looks more v T
  | _, _, .atom hatom hv hmark, hst =>
    .atom hatom (hv.outgrows hst.outgrows) (hst.le.marks hmark)
  | _, _, .part hv, hst => .part (hst.guest hv)
  | _, _, .list h, hst => .list (h.reserves hst)

theorem LooksAll.reserves : ∀ {v : Value} {Ts : List Sketch}, s.LooksAll own v Ts →
    s.Reserves own t more → t.LooksAll more v Ts
  | _, _, .nil, _ => .nil
  | _, _, .cons ha hcar hcdr, hst => by
    rw [← hst.spares.pairAt_eq _ ha] at hcar hcdr
    have hcar' := hcar.reserves hst
    have hcdr' := hcdr.reserves hst
    exact .cons (hst.le.pairs _ ha) hcar' hcdr'

end

theorem LooksAll.known {v : Value} {Ts : List Sketch} (h : s.LooksAll own v Ts)
    (hs : s.Secludes own) : s.Known v := by
  cases h with
  | nil => trivial
  | cons ha => exact hs.pair_lt _ ha

theorem Looks.known {v : Value} {T : Sketch} (h : s.Looks own v T) (hs : s.Secludes own) :
    s.Known v := by
  cases h with
  | atom _ hv _ => exact hv
  | part hv => exact hv.known
  | list h => exact h.known hs

theorem LooksAll.chain {v : Value} {Ts : List Sketch} (h : s.LooksAll own v Ts) :
    ∃ vs, s.Chain v vs .null ∧ List.Forall₂ (s.Looks own) vs Ts := by
  induction Ts generalizing v with
  | nil =>
    cases h
    exact ⟨[], .tail nofun, .nil⟩
  | cons T Ts ih =>
    cases h with
    | cons ha hcar hcdr =>
      obtain ⟨vs, hchain, hvs⟩ := ih hcdr
      exact ⟨_, .pair hchain, .cons hcar hvs⟩

theorem Looks.chain {v : Value} {Ts : List Sketch} (h : s.Looks own v (.list Ts)) :
    ∃ vs, s.Chain v vs .null ∧ List.Forall₂ (s.Looks own) vs Ts := by
  cases h with
  | list h => exact h.chain

theorem Looks.eq_of_atom {v w : Value} (h : s.Looks own v (.atom w)) : v = w := by
  cases h
  rfl

theorem Looks.eq_of_part {v w : Value} (h : s.Looks own v (.part w)) : v = w := by
  cases h
  rfl

theorem Looks.marks {v w : Value} (h : s.Looks own v (.atom w)) : own.Marks w := by
  cases h with
  | atom _ _ hmark => exact hmark

theorem Looks.guest {v w : Value} (h : s.Looks own v (.part w)) : s.Guest own w := by
  cases h with
  | part hv => exact hv

/-- A pair that is made in front of a list of the reserve is in the reserve as well. -/
theorem Secludes.cons (hs : s.Secludes own) (hknown : s.All s.Known) {v w : Value} {T : Sketch}
    {Ts : List Sketch} (hv : s.Looks own v T) (hw : s.LooksAll own w Ts) :
    s.Reserves own { s with pairs := s.pairs.push ⟨v, w⟩ } (own.withPair s.pairs.size) ∧
      ({ s with pairs := s.pairs.push ⟨v, w⟩ } : Store).LooksAll (own.withPair s.pairs.size)
        (.pair s.pairs.size) (T :: Ts) := by
  have hpair := hs.withPair (p := ⟨v, w⟩) hknown (hv.known hs) (hw.known hs)
  refine ⟨hpair, .cons (.inl rfl) ?_ ?_⟩ <;> rw [s.pairAt_push_size ⟨v, w⟩]
  · exact hv.reserves hpair
  · exact hw.reserves hpair

theorem Secludes.list (hs : s.Secludes own) (hknown : s.All s.Known) {vs : List Value}
    {Ts : List Sketch} (h : List.Forall₂ (s.Looks own) vs Ts) :
    ∃ more, s.Reserves own (Build.list vs s).2 more ∧
      (Build.list vs s).2.Looks more (Build.list vs s).1 (.list Ts) := by
  suffices hreversed : ∀ (reversed : List Value) (Us Vs : List Sketch) (rest : Value) (s : Store)
      (own : Reserve), s.Secludes own → s.All s.Known → List.Forall₂ (s.Looks own) reversed Us →
      s.LooksAll own rest Vs → ∃ more, s.Reserves own (Build.consReversed reversed rest s).2 more ∧
        (Build.consReversed reversed rest s).2.LooksAll more
          (Build.consReversed reversed rest s).1 (Us.reverse ++ Vs) by
    obtain ⟨more, hmore, hlooks⟩ := hreversed vs.reverse Ts.reverse [] .null s own hs hknown
      (List.forall₂_reverse_iff.mpr h) .nil
    rw [List.reverse_reverse, List.append_nil] at hlooks
    exact ⟨more, hmore, .list hlooks⟩
  intro reversed
  induction reversed with
  | nil =>
    intro Us Vs rest s own hs hknown hUs hrest
    cases hUs
    exact ⟨own, .refl hs hknown, hrest⟩
  | cons v reversed ih =>
    intro Us Vs rest s own hs hknown hUs hrest
    cases hUs with
    | @cons _ U _ Us hv hUs =>
      obtain ⟨hpair, hcell⟩ := hs.cons hknown hv hrest
      obtain ⟨more, hmore, hlooks⟩ := ih Us (U :: Vs) (.pair s.pairs.size) _ _ hpair.secludes
        hpair.known (hUs.imp fun _ _ hlooks => hlooks.reserves hpair) hcell
      refine ⟨more, hpair.trans hmore, ?_⟩
      rw [List.reverse_cons, List.append_assoc, List.singleton_append]
      exact hlooks

end Store

/-! ### Figures -/

inductive Figure
  | one (T : Sketch)
  | many (Fs : List Figure)

abbrev Figures := List (Symbol × Figure)

namespace Figures

def drivers (vars : List Symbol) (fs : Figures) : List (Symbol × List Figure) :=
  vars.filterMap fun x =>
    match fs.lookup x with
    | some (.many sequence) => some (x, sequence)
    | _ => none

def rounds : Nat → List (Symbol × List Figure) → List Figures
  | 0, _ => []
  | n + 1, sequences =>
    (sequences.filterMap fun (x, sequence) => sequence.head?.map (x, ·))
      :: rounds n (sequences.map fun (x, sequence) => (x, sequence.tail))

def repeated (vars : List Symbol) (emit : Figures → Option Sketch) :
    Nat → Figures → Option (List Sketch)
  | 0, fs => (emit fs).map ([·])
  | ellipses + 1, fs =>
    match drivers vars fs with
    | [] => none
    | d :: more =>
      ((rounds d.2.length (d :: more)).mapM fun row => repeated vars emit ellipses (row ++ fs)).map
        List.flatten

end Figures

mutual

def Template.draw (introduced : Symbol → Symbol) : Template → Figures → Option Sketch
  | .variable x, fs =>
    match fs.lookup x with
    | some (.one T) => some T
    | _ => none
  | .free x, _ => some (.atom (.symbol (introduced x)))
  | .constant v, _ => some (.atom v)
  | .list items, fs => (items.draw introduced fs).map .list
  | .vector _, _ => none

def TemplateSeq.draw (introduced : Symbol → Symbol) : TemplateSeq → Figures → Option (List Sketch)
  | .done, _ => some []
  | .tail _, _ => none
  | .item t ellipses more, fs => do
    let Ts ← Figures.repeated t.vars (t.draw introduced) ellipses fs
    let Us ← more.draw introduced fs
    return Ts ++ Us

end

namespace Figures

variable {α : Type} {vars : List Symbol} {emit : Figures → Option Sketch} {fs : Figures}
  {gs : List (Symbol × (α → Figure))} {as : List α}

theorem rounds_map : rounds as.length (gs.map fun g => (g.1, as.map g.2)) =
    as.map fun a => gs.map fun g => (g.1, g.2 a) := by
  induction as with
  | nil => rfl
  | cons a as ih =>
    rw [List.length_cons, rounds, List.map_cons]
    congr 1
    · simp [List.filterMap_map, Function.comp_def]
    · rw [← ih, List.map_map]
      rfl

theorem repeated_succ {n : Nat} (hgs : gs ≠ [])
    (h : drivers vars fs = gs.map fun g => (g.1, as.map g.2)) : repeated vars emit (n + 1) fs =
      (as.mapM fun a => repeated vars emit n ((gs.map fun g => (g.1, g.2 a)) ++ fs)).map
        List.flatten := by
  obtain ⟨g, more, rfl⟩ := List.exists_cons_of_ne_nil hgs
  have hrounds : rounds as.length ((g :: more).map fun g => (g.1, as.map g.2)) =
      as.map fun a => (g :: more).map fun g => (g.1, g.2 a) := rounds_map
  rw [List.map_cons] at h hrounds
  rw [repeated, h]
  dsimp only
  rw [List.length_map, hrounds, List.mapM_map]
  rfl

theorem repeated_items {draw : α → Sketch} (hgs : gs ≠ [])
    (h : drivers vars fs = gs.map fun g => (g.1, as.map g.2))
    (hdraw : ∀ a ∈ as, emit ((gs.map fun g => (g.1, g.2 a)) ++ fs) = some (draw a)) :
    repeated vars emit 1 fs = some (as.map draw) := by
  have hrows : (as.mapM fun a => repeated vars emit 0 ((gs.map fun g => (g.1, g.2 a)) ++ fs)) =
      some (as.map fun a => [draw a]) := by
    clear h
    induction as with
    | nil => rfl
    | cons a as ih =>
      obtain ⟨ha, has⟩ := List.forall_mem_cons.mp hdraw
      rw [List.mapM_cons, ih has, repeated, ha]
      rfl
  rw [repeated_succ hgs h, hrows, Option.map_some, ← List.flatMap_def, ← List.map_eq_flatMap]

theorem repeated_variable {introduced : Symbol → Symbol} {x : Symbol} {Ts : List Sketch}
    (h : fs.lookup x = some (.many (Ts.map .one))) :
    repeated (Template.variable x).vars (Template.draw introduced (.variable x)) 1 fs = some
      Ts := by
  have hdrivers : drivers (Template.variable x).vars fs =
      [(x, Figure.one)].map fun g => (g.1, Ts.map g.2) := by
    simp [drivers, Template.vars, Template.occurrences, distinct, h]
  have hdraw : ∀ T ∈ Ts, Template.draw introduced (.variable x)
      (([(x, Figure.one)].map fun g => (g.1, g.2 T)) ++ fs) = some (id T) := by
    simp [Template.draw]
  rw [repeated_items (by simp) hdrivers hdraw, List.map_id]

end Figures

namespace Store

/-- The reserve is secluded, and all that is referred to is in the store. -/
structure Safe (s : Store) (own : Reserve) : Prop where
  secludes : s.Secludes own
  known : s.All s.Known

structure Adds (s : Store) (own : Reserve) (t : Store) (more : Reserve) : Prop extends
    s.Reserves own t more where
  expands : s.Expands t

variable {s t u : Store} {own more most : Reserve} {v : Value}

theorem Adds.refl (hs : s.Safe own) : s.Adds own s own := ⟨.refl hs.secludes hs.known, .refl s⟩

theorem Adds.trans (h : s.Adds own t more) (k : t.Adds more u most) : s.Adds own u most :=
  ⟨h.toReserves.trans k.toReserves, h.expands.trans k.expands⟩

theorem Adds.safe (h : s.Adds own t more) : t.Safe more := ⟨h.secludes, h.known⟩

abbrev LookAll (s : Store) (own : Reserve) : List Value → List Sketch → Prop :=
  List.Forall₂ (s.Looks own)

theorem lookAll_reserves {vs : List Value} {Ts : List Sketch} (h : s.LookAll own vs Ts)
    (hst : s.Reserves own t more) : t.LookAll more vs Ts := h.imp fun _ _ hv => hv.reserves hst

/-- What an action does to the items of a list, one after the other. Something may be known of the
store in which this ends, if it is then known of the stores before. -/
theorem Adds.items {Ts : List Sketch} {Qs : List (Sketch → Prop)} {f : Value → Action Value}
    {Toward : Store → Prop}
    (hback : ∀ vs ws t u, List.mapM f vs t = .ok ws u → Toward u → Toward t)
    (h : List.Forall₂ (fun T Q => ∀ ⦃t more v w u⦄, s.Adds own t more → t.Looks more v T →
      f v t = .ok w u → Toward u → ∃ most U, t.Adds more u most ∧ u.Looks most w U ∧ Q U) Ts Qs)
    {vs ws : List Value} (hst : s.Adds own t more) (hlooks : t.LookAll more vs Ts)
    (hf : vs.mapM f t = .ok ws u) (htoward : Toward u) :
    ∃ most Us, t.Adds more u most ∧ u.LookAll most ws Us ∧ List.Forall₂ (fun Q U => Q U) Qs Us := by
  induction vs generalizing Ts Qs t more ws with
  | nil =>
    cases hlooks
    cases h
    cases hf
    exact ⟨more, [], .refl hst.safe, .nil, .nil⟩
  | cons v vs ih =>
    cases hlooks with
    | cons hv hvs =>
      cases h with
      | cons hT hTs =>
        rw [List.mapM_cons] at hf
        obtain ⟨w, t₁, hw, hf⟩ := Action.ok_of_bind hf
        obtain ⟨ws, t₂, hws, hf⟩ := Action.ok_of_bind hf
        cases hf
        obtain ⟨most, U, hadds, hU, hQ⟩ := hT hst hv hw (hback _ _ _ _ hws htoward)
        obtain ⟨most', Us, hadds', hUs, hQs⟩ := ih hTs (hst.trans hadds)
          (lookAll_reserves hvs hadds.toReserves) hws
        exact ⟨most', U :: Us, hadds.trans hadds', .cons (hU.reserves hadds'.toReserves) hUs,
          .cons hQ hQs⟩

theorem Safe.list (hs : s.Safe own) {vs : List Value} {Ts : List Sketch}
    (h : List.Forall₂ (s.Looks own) vs Ts) {w : Value}
    (hw : (liftM (Build.list vs) : Action Value) s = .ok w t) :
    ∃ more, s.Adds own t more ∧ t.Looks more w (.list Ts) := by
  obtain ⟨more, hmore, hlooks⟩ := hs.secludes.list hs.known h
  have hexpands := Build.expanding_list vs s
  rw [Action.lift_ok hw] at hmore hlooks hexpands
  exact ⟨more, ⟨hmore, hexpands⟩, hlooks⟩

theorem Safe.cons (hs : s.Safe own) {x : Value} {T : Sketch} {Ts : List Sketch}
    (hx : s.Looks own x T) (hv : s.Looks own v (.list Ts)) {w : Value}
    (hw : (liftM (Build.cons x v) : Action Value) s = .ok w t) :
    ∃ more, s.Adds own t more ∧ t.Looks more w (.list (T :: Ts)) := by
  cases hv with
  | list hall =>
    obtain ⟨hpair, hlooks⟩ := hs.secludes.cons hs.known hx hall
    cases hw
    exact ⟨_, ⟨hpair, .of_grows (grows_push_pair _ _) rfl rfl rfl⟩, .list hlooks⟩

mutual

inductive Fits (s : Store) (own : Reserve) : Binding → Figure → Prop
  | one {v : Value} {T : Sketch} (h : s.Looks own v T) : Fits s own (.one v) (.one T)
  | many {bs : List Binding} {Fs : List Figure} (h : FitsAll s own bs Fs) :
      Fits s own (.many bs) (.many Fs)

inductive FitsAll (s : Store) (own : Reserve) : List Binding → List Figure → Prop
  | nil : FitsAll s own [] []
  | cons {b : Binding} {F : Figure} {bs : List Binding} {Fs : List Figure} (h : Fits s own b F)
      (hmore : FitsAll s own bs Fs) : FitsAll s own (b :: bs) (F :: Fs)

end

abbrev FitsEach (s : Store) (own : Reserve) : Bindings → Figures → Prop :=
  List.Forall₂ fun b f => b.1 = f.1 ∧ s.Fits own b.2 f.2

mutual

theorem Fits.reserves : ∀ {b : Binding} {F : Figure}, s.Fits own b F → s.Reserves own t more →
    t.Fits more b F
  | _, _, .one h, hst => .one (h.reserves hst)
  | _, _, .many h, hst => .many (h.reserves hst)

theorem FitsAll.reserves : ∀ {bs : List Binding} {Fs : List Figure}, s.FitsAll own bs Fs →
    s.Reserves own t more → t.FitsAll more bs Fs
  | _, _, .nil, _ => .nil
  | _, _, .cons h hmore, hst => .cons (h.reserves hst) (hmore.reserves hst)

end

theorem fitsAll_map {α : Type} {as : List α} {b : α → Binding} {F : α → Figure}
    (h : ∀ a ∈ as, s.Fits own (b a) (F a)) : s.FitsAll own (as.map b) (as.map F) := by
  induction as with
  | nil => exact .nil
  | cons a as ih =>
    obtain ⟨ha, has⟩ := List.forall_mem_cons.mp h
    exact .cons ha (ih has)

theorem fitsAll_ones {vs : List Value} {Ts : List Sketch} (h : List.Forall₂ (s.Looks own) vs Ts) :
    s.FitsAll own (vs.map .one) (Ts.map .one) := by
  induction h with
  | nil => exact .nil
  | cons hv _ ih => exact .cons (.one hv) ih

theorem FitsAll.length_eq {bs : List Binding} {Fs : List Figure} (h : s.FitsAll own bs Fs) :
    bs.length = Fs.length := by
  induction Fs generalizing bs with
  | nil =>
    cases h
    rfl
  | cons F Fs ih =>
    cases h with
    | cons _ hmore => exact congrArg Nat.succ (ih hmore)

section FitsEach

variable {bs : Bindings} {fs : Figures}

theorem fitsEach_reserves (h : s.FitsEach own bs fs) (hst : s.Reserves own t more) :
    t.FitsEach more bs fs := h.imp fun _ _ hb => ⟨hb.1, hb.2.reserves hst⟩

theorem fits_lookup (h : s.FitsEach own bs fs) (x : Symbol) :
    Option.Rel (s.Fits own) (bs.lookup x) (fs.lookup x) := by
  induction h with
  | nil => exact .none
  | @cons b f bs fs hb _ ih =>
    rw [lookup_entry, lookup_entry, hb.1]
    split
    · exact .some hb.2
    · exact ih

theorem fits_drivers (h : s.FitsEach own bs fs) (vars : List Symbol) :
    List.Forall₂ (fun d e => d.1 = e.1 ∧ s.FitsAll own d.2 e.2) (MacroUse.drivers vars bs)
      (Figures.drivers vars fs) := by
  induction vars with
  | nil => exact .nil
  | cons x vars ih =>
    unfold MacroUse.drivers Figures.drivers at ih ⊢
    rw [List.filterMap_cons, List.filterMap_cons]
    have hx := fits_lookup h x
    generalize bs.lookup x = b at hx
    generalize fs.lookup x = f at hx
    cases hx with
    | none => exact ih
    | some hfits =>
      cases hfits with
      | one => exact ih
      | many hall => exact .cons ⟨rfl, hall⟩ ih

theorem fits_rounds {ds : List (Symbol × List Binding)} {es : List (Symbol × List Figure)}
    (h : List.Forall₂ (fun d e => d.1 = e.1 ∧ s.FitsAll own d.2 e.2) ds es) (n : Nat) :
    List.Forall₂ (s.FitsEach own) (MacroUse.rounds n ds) (Figures.rounds n es) := by
  induction n generalizing ds es with
  | zero => exact .nil
  | succ n ih =>
    unfold MacroUse.rounds Figures.rounds
    refine .cons ?_ (ih ?_)
    · induction h with
      | nil => exact .nil
      | @cons d e ds es hd _ ih =>
        obtain ⟨x, bs⟩ := d
        obtain ⟨y, Fs⟩ := e
        obtain ⟨rfl, hall⟩ := hd
        rw [List.filterMap_cons, List.filterMap_cons]
        cases hall with
        | nil => exact ih
        | cons hfirst _ => exact .cons ⟨rfl, hfirst⟩ ih
    · refine List.forall₂_map_left_iff.mpr (List.forall₂_map_right_iff.mpr (h.imp ?_))
      rintro ⟨x, bs⟩ ⟨y, Fs⟩ ⟨rfl, hall⟩
      refine ⟨rfl, ?_⟩
      cases hall with
      | nil => exact .nil
      | cons _ hmore => exact hmore

end FitsEach

end Store

namespace MacroUse

variable {u : MacroUse} {s : Store}

open Store

def Draws {α β : Type} (u : MacroUse) (s : Store) (x : Bindings → Action α)
    (draw : Figures → Option β) (Q : Store → Reserve → α → β → Prop) : Prop :=
  ∀ ⦃bs fs t t' own a b⦄, t.frames = s.frames → t.Safe own → own.stamps u.phase u.index →
    t.FitsEach own bs fs → draw fs = some b → x bs t = .ok a t' →
      t'.frames = s.frames ∧ ∃ more, t.Adds own t' more ∧ Q t' more a b

theorem draws_rounds {bs : Bindings} {fs : Figures} {round : Bindings → Action (List Value)}
    {draw : Figures → Option (List Sketch)} (h : Draws u s round draw LookAll)
    {t t' : Store} {own : Reserve} {rows : List Bindings} {figures : List Figures}
    {vss : List (List Value)} {Tss : List (List Sketch)} (ht : t.frames = s.frames)
    (hsafe : t.Safe own) (hstamp : own.stamps u.phase u.index) (hfits : t.FitsEach own bs fs)
    (hrows : List.Forall₂ (t.FitsEach own) rows figures)
    (hdraw : (figures.mapM fun row => draw (row ++ fs)) = some Tss)
    (hvss : (rows.mapM fun row => round (row ++ bs)) t = .ok vss t') :
    t'.frames = s.frames ∧ ∃ more, t.Adds own t' more ∧
      LookAll t' more vss.flatten Tss.flatten := by
  induction rows generalizing t own vss figures Tss with
  | nil =>
    cases hrows
    cases hdraw
    cases hvss
    exact ⟨ht, own, .refl hsafe, .nil⟩
  | cons row rows ih =>
    cases hrows with
    | cons hrow hrows =>
      rw [List.mapM_cons] at hdraw hvss
      obtain ⟨Ts, hTs, hdraw⟩ := Option.bind_eq_some_iff.mp hdraw
      obtain ⟨Uss, hUss, hdraw⟩ := Option.bind_eq_some_iff.mp hdraw
      cases hdraw
      obtain ⟨vs, t₁, hvs, hvss⟩ := Action.ok_of_bind hvss
      obtain ⟨wss, t₂, hwss, hvss⟩ := Action.ok_of_bind hvss
      cases hvss
      obtain ⟨ht₁, more, hadds, hlooks⟩ := h ht hsafe hstamp (List.rel_append hrow hfits) hTs hvs
      have hreserves := hadds.toReserves
      obtain ⟨ht₂, most, hadds', hlooks'⟩ := ih ht₁ hadds.safe (hadds.le.stamps _ _ hstamp)
        (fitsEach_reserves hfits hreserves)
        (hrows.imp fun _ _ hrow => fitsEach_reserves hrow hreserves) hUss hwss
      exact ⟨ht₂, most, hadds.trans hadds',
        List.rel_append (lookAll_reserves hlooks hadds'.toReserves) hlooks'⟩

theorem draws_repeated {vars : List Symbol} {emit : Bindings → Action Value}
    {draw : Figures → Option Sketch} (h : Draws u s emit draw Store.Looks) (ellipses : Nat) :
    Draws u s (u.repeated vars emit ellipses) (Figures.repeated vars draw ellipses) LookAll := by
  induction ellipses with
  | zero =>
    intro bs fs t t' own vs Ts ht hsafe hstamp hfits hdraw hvs
    obtain ⟨T, hT, rfl⟩ := Option.map_eq_some_iff.mp hdraw
    obtain ⟨v, t₁, hv, hvs⟩ := Action.ok_of_bind hvs
    cases hvs
    obtain ⟨ht₁, more, hadds, hlooks⟩ := h ht hsafe hstamp hfits hT hv
    exact ⟨ht₁, more, hadds, .cons hlooks .nil⟩
  | succ ellipses ih =>
    intro bs fs t t' own vs Ts ht hsafe hstamp hfits hdraw hvs
    have hdrivers := fits_drivers hfits vars
    unfold MacroUse.repeated at hvs
    unfold Figures.repeated at hdraw
    generalize drivers vars bs = ds at hdrivers hvs
    generalize Figures.drivers vars fs = es at hdrivers hdraw
    cases hdrivers with
    | nil => cases hdraw
    | @cons d e ds es hd hmore =>
      obtain ⟨first, sequence⟩ := d
      dsimp only at hvs hdraw
      obtain ⟨Tss, hTss, rfl⟩ := Option.map_eq_some_iff.mp hdraw
      cases hfind : ds.find? (·.2.length != sequence.length) with
      | some other =>
        rw [hfind] at hvs
        cases hvs
      | none =>
        rw [hfind] at hvs
        obtain ⟨vss, t₁, hvss, hvs⟩ := Action.ok_of_bind hvs
        cases hvs
        have hlength : sequence.length = e.2.length := hd.2.length_eq
        rw [← hlength] at hTss
        exact draws_rounds ih ht hsafe hstamp hfits
          (fits_rounds (.cons hd hmore) sequence.length) hTss hvss

mutual

theorem draws_transcribe : ∀ (p : Template),
    (∀ c ∈ p.constants, c.isConstant ∧ ∀ a, c ≠ .closure a) →
    Draws u s (u.transcribe p) (p.draw (u.introduce s)) Store.Looks
  | .variable x, _ => by
    intro bs fs t t' own v T ht hsafe _ hfits hdraw h
    unfold transcribe at h
    unfold Template.draw at hdraw
    have hx := fits_lookup hfits x
    generalize bs.lookup x = b at hx h
    generalize fs.lookup x = f at hx hdraw
    cases hx with
    | none => cases h
    | some hfit =>
      cases hfit with
      | one hlooks =>
        cases h
        cases hdraw
        exact ⟨ht, own, .refl hsafe, hlooks⟩
      | many => cases h
  | .free x, _ => by
    intro bs fs t t' own v T ht hsafe hstamp _ hdraw h
    unfold transcribe at h
    cases hdraw
    cases h
    refine ⟨ht, own, .refl hsafe, ?_⟩
    -- What the template brings depends on the frames alone, and these stay as they are.
    rw [← introduce_congr ht]
    refine .atom nofun (SyntaxDiscipline.stamp_introduce (D := knowing.toSyntaxDiscipline)
      (hsafe.secludes.stamp _ _ hstamp).2 x) ?_
    unfold introduce
    dsimp only
    split
    · exact Reserve.marks_unstamped rfl
    · rintro _ ⟨⟩ -
      exact hstamp
  | .constant c, hconstants => by
    intro bs fs t t' own v T ht hsafe _ _ hdraw h
    unfold transcribe at h
    cases hdraw
    cases h
    obtain ⟨hconstant, hclosure⟩ := hconstants c (by simp [Template.constants])
    refine ⟨ht, own, .refl hsafe, .atom ?_ (known_constant hconstant hclosure) ?_⟩
    · rintro a rfl
      cases hconstant
    · rintro x rfl
      cases hconstant
  | .list items, hconstants => by
    intro bs fs t t' own v T ht hsafe hstamp hfits hdraw h
    unfold transcribe at h
    unfold Template.draw at hdraw
    obtain ⟨Ts, hTs, rfl⟩ := Option.map_eq_some_iff.mp hdraw
    obtain ⟨⟨vs, tail⟩, t₁, hitems, h⟩ := Action.ok_of_bind h
    obtain ⟨ht₁, more, hadds, hlooks, rfl⟩ := draws_transcribeItems items hconstants ht hsafe
      hstamp hfits
      hTs hitems
    obtain ⟨most, hadds', hlist⟩ := hadds.safe.list hlooks h
    -- Making the list adds pairs and leaves the frames alone.
    have hframes := congrArg Store.frames (Build.listWithTail_rest vs .null t₁)
    rw [Action.lift_ok h] at hframes
    exact ⟨hframes.trans ht₁, most, hadds.trans hadds', hlist⟩
  | .vector items, _ => by
    intro bs fs t t' own v T _ _ _ _ hdraw _
    cases hdraw

theorem draws_transcribeItems : ∀ (ps : TemplateSeq),
    (∀ c ∈ ps.constants, c.isConstant ∧ ∀ a, c ≠ .closure a) →
    Draws u s (u.transcribeItems ps) (ps.draw (u.introduce s)) fun t more parts Ts =>
      LookAll t more parts.1 Ts ∧ parts.2 = .null
  | .done, _ => by
    intro bs fs t t' own parts Ts ht hsafe _ _ hdraw h
    unfold transcribeItems at h
    cases hdraw
    cases h
    exact ⟨ht, own, .refl hsafe, .nil, rfl⟩
  | .tail p, _ => by
    intro bs fs t t' own parts Ts _ _ _ _ hdraw _
    cases hdraw
  | .item p ellipses more, hconstants => by
    intro bs fs t t' own parts Ts ht hsafe hstamp hfits hdraw h
    unfold transcribeItems at h
    unfold TemplateSeq.draw at hdraw
    obtain ⟨hfirst, hmore⟩ := List.forall_mem_append.mp hconstants
    obtain ⟨Ts, hTs, hdraw⟩ := Option.bind_eq_some_iff.mp hdraw
    obtain ⟨Us, hUs, hdraw⟩ := Option.bind_eq_some_iff.mp hdraw
    cases hdraw
    obtain ⟨vs, t₁, hvs, h⟩ := Action.ok_of_bind h
    obtain ⟨⟨ws, tail⟩, t₂, hws, h⟩ := Action.ok_of_bind h
    cases h
    obtain ⟨ht₁, most, hadds, hlooks⟩ := draws_repeated (draws_transcribe p hfirst) ellipses ht
      hsafe hstamp
      hfits hTs hvs
    obtain ⟨ht₂, last, hadds', hlooks', rfl⟩ := draws_transcribeItems more hmore ht₁ hadds.safe
      (hadds.le.stamps _ _ hstamp) (fitsEach_reserves hfits hadds.toReserves) hUs hws
    exact ⟨ht₂, last, hadds.trans hadds',
      List.rel_append (lookAll_reserves hlooks hadds'.toReserves) hlooks', rfl⟩

end

end MacroUse

end HygienicScheme
