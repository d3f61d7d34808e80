import HygienicScheme.Proofs.Derived.Clauses
import HygienicScheme.Proofs.Derived.Looping

/-!
# Whole loops

When a `do` form is expanded as a whole and its stamps are settled, what comes of it goes from round
to round at one depth. So does what comes of a `let` form with a tag, as long as the procedure is
called by its tag in tail position.

A `let` form with a tag becomes the call of a procedure that knows itself by the tag. The operands of the call
stand outside of the frame where the tag is bound. Whenever the procedure is called by itself in
tail position, what comes of the call is what comes of that later one.
-/
namespace HygienicScheme

open Machine Run Store Sketch

/-! ### `let` forms with a tag -/

structure Tagged where
  tag : String
  names : List String
  inits : List Value
  body : List Value

/-- What follows the keyword of a `let` form reads as this. -/
inductive Store.IsTagged (s : Store) : List Value → Tagged → Prop
  | intro {tag : String} {pairs next : Value} {items more : List Value}
      {nvs : List (String × Value)} (hpairs : s.properList? pairs = some items)
      (hnvs : List.Forall₂ (fun v nv => s.properList? v = some [.name nv.1, nv.2]) items nvs) :
      IsTagged s (.name tag :: pairs :: next :: more)
        ⟨tag, nvs.map Prod.fst, nvs.map Prod.snd, next :: more⟩

/-- `((letrec ((tag (lambda (name ...) body ...))) tag) init ...)`, with the `letrec` form
expanded. -/
abbrev Sketch.tagged (K : Tagged) : Sketch :=
  .list (.recursive (.part (.name K.tag))
    (.form "lambda" (.list (parts (K.names.map Value.name)) :: parts K.body))
    [.part (.name K.tag)] :: parts K.inits)

theorem Sketch.legible_tagged {K : Tagged} : (Sketch.tagged K).Legible := by
  refine .list ?_ (List.forall_mem_cons.mpr ⟨?_, legible_parts⟩)
  · rintro y (hy | hy) <;> cases hy
  · exact legible_recursive .name (legible_lambda legible_parts)
      (List.forall_mem_singleton.mpr .part)

namespace Derived

variable {env : Environment} {last s t u : Store} {own more : Reserve} {v : Value}
  {H T U W : Sketch} {K : Tagged} {x : Symbol} {vs : List Value} {bound : List Symbol}

/-- What reads as a `let` form with a tag is read like this where code is only added. -/
theorem isTagged_adds (hs : s.Safe own) (hst : s.Adds own t more) (hvs : ∀ v ∈ vs, s.Guest own v)
    (h : s.IsTagged vs K) : t.IsTagged vs K := by
  cases h with
  | intro hpairs hnvs =>
    obtain ⟨-, hvs⟩ := List.forall_mem_cons.mp hvs
    obtain ⟨hguest, -⟩ := List.forall_mem_cons.mp hvs
    refine .intro ((properList?_grows hs.known hguest.known hst.expands.toGrows).trans hpairs) ?_
    exact forall₂_adds hs hst (hs.items hguest hpairs) hnvs

theorem drafts_tagged (hs : s.Safe own) (hstanding : Standing env last s)
    (hvs : ∀ v ∈ vs, s.Guest own v) (hK : s.IsTagged vs K)
    (hreads : Reads own s T (H :: vs.map .part))
    (hH : H = .atom (.symbol x) ∨ H = .part (.symbol x)) (hx : x.name = "let") :
    Drafts env last own s T fun U => ∃ body inits,
      U = Sketch.tagged { K with body := body, inits := inits } ∧
        List.Forall₂ (Becomes env s last) K.body body ∧
        List.Forall₂ (Becomes env s last) K.inits inits := by
  cases hK with
  | @intro tag pairs next items more nvs hpairs hnvs =>
    obtain ⟨-, hvs⟩ := List.forall_mem_cons.mp hvs
    obtain ⟨hguest, -⟩ := List.forall_mem_cons.mp hvs
    have hitems := hs.items hguest hpairs
    let NVs : List (Sketch × Sketch) := nvs.map fun nv => (.part (.name nv.1), .part nv.2)
    have hfirst : NVs.map Prod.fst = parts ((nvs.map Prod.fst).map Value.name) := by
      simp [NVs, List.map_map, Function.comp_def]
    have hsecond : NVs.map Prod.snd = parts (nvs.map Prod.snd) := by
      simp [NVs, List.map_map, Function.comp_def]
    have hP : List.Forall₂ (fun P NV => Reads own s P [NV.1, NV.2]) (parts items) NVs := by
      rw [List.forall₂_map_left_iff, List.forall₂_map_right_iff]
      clear hpairs hfirst hsecond
      induction hnvs with
      | nil => exact .nil
      | cons hnv _ ih =>
        obtain ⟨hitem, hitems⟩ := List.forall_mem_cons.mp hitems
        exact .cons (reads_part hs hitem hnv) (ih hitems)
    have hvals : List.Forall₂ (Drafts env last own s) (NVs.map Prod.snd) _ :=
      hsecond ▸ drafts_parts
    have hbody : List.Forall₂ (Drafts env last own s) (parts (next :: more)) _ := drafts_parts
    refine (drafts_named hstanding hreads hH hx (reads_part hs hguest hpairs) hP hvals
      hbody).mono ?_
    rintro U ⟨Cs, Vs, rfl, hCs, hVs⟩
    obtain ⟨body, rfl, hbody⟩ := parts_of_drafts hCs
    obtain ⟨inits, rfl, hinits⟩ := parts_of_drafts hVs
    exact ⟨body, inits, by rw [hfirst]; rfl, hbody, hinits⟩

theorem settled_tagged (h : Settled bound s u (Sketch.tagged K) W) : ∃ body inits,
    W = Sketch.tagged { K with body := body, inits := inits } ∧
      List.Forall₂ (Treated (Renaming.code bound) s u) K.body body ∧
      List.Forall₂ (Treated (Renaming.code bound) s u) K.inits inits := by
  obtain ⟨R, Us, rfl, hR, hUs⟩ := settled_of_list (T := .recursive _ _ _) nofun h
  obtain ⟨inits, rfl, hinits⟩ := settled_of_parts hUs
  obtain ⟨N, C, Cs, rfl, hN, hC, hCs⟩ := settled_of_recursive hR
  obtain ⟨Bs, rfl, hBs⟩ := settled_of_lambda hC
  obtain ⟨body, rfl, hbody⟩ := settled_of_parts hBs
  have htag : ∀ {T}, Settled bound s u (.part (.name K.tag)) T → T = .part (.name K.tag) := by
    intro T hT
    obtain ⟨w, rfl, hw⟩ := settled_of_part hT
    rw [treated_name hw]
  obtain rfl := htag hN
  cases hCs with
  | cons hT hCs =>
    cases hCs
    obtain rfl := htag hT
    exact ⟨body, inits, rfl, hbody, hinits⟩

end Derived

namespace Machine

variable {c : Context} {d : Nat} {env : Environment} {s s' t : Store} {r : Result}
  {own : Reserve} {v : Value} {x : Symbol} {K : Tagged} {R : Run} {f : Value} {forms : List Value}

theorem alone_tail_symbol :
    alone c d (.tail (.symbol x) env) s r s' ↔ alone c d (.eval (.symbol x) env) s r s' :=
  (alone_tail.trans comes_give).trans alone_symbol.symm

theorem of_within (h : within c d R s (.value v) s') : R s (.value v) s' := by
  unfold within at h
  split at h
  · cases h.1
  · exact h

/-- What comes of a call with the values of the operands is what comes of the last such call. -/
theorem valuesOf_repeats :
    valuesOf c d env forms (fun vs => alone c d (.apply f vs)) s r s' ↔
      valuesOf c d env forms (repeats (Again c d f) (Finally c d f)) s r s' := by
  rw [valuesOf_iff]
  simp only [repeats_calls]
  exact valuesOf_iff.symm

/-- The procedure is made where the tag means it. It is called with the first values, which are
evaluated where it is not. -/
theorem runs_tagged (hs : s.Safe own) (h : s.Looks own v (Sketch.tagged K))
    (htag : isCoreKeyword K.tag = false) (hdistinct : K.names.Nodup) (hbody : K.body ≠ []) :
    ∃ thunk q : Lambda, ∀ ⦃t more⦄, s.Reserves own t more → ∀ c d env r s',
      alone c d (.tail v env) t r s' ↔ ((within c d (recursively c (d + 1) env (.user K.tag) thunk
        ⟨K.names.map .user, K.body⟩ q fun f _ _ => .done f)).andThen fun f =>
          valuesOf c d env K.inits (repeats (Again c d f) (Finally c d f))) t r s' := by
  obtain ⟨operator, operands, inits, hoperator, hinits, happlication⟩ := h.application (by
    rintro y (hy | hy) <;> cases hy)
  obtain ⟨rfl, -⟩ := Derived.lookAll_parts.mp hinits
  have hnames : (K.names.map Symbol.user).Nodup := hdistinct.map fun n m hnm => by injection hnm
  obtain ⟨thunk, bs, cs, hbs, hcs, hruns⟩ := runs_recursive hs hoperator (.inr rfl) htag
    formals_names hnames (by simpa using hbody) (by simp) fun _ B hB => by
      obtain ⟨w, -, rfl⟩ := List.mem_map.mp hB
      exact ⟨w, rfl⟩
  obtain ⟨rfl, -⟩ := Derived.lookAll_parts.mp hbs
  refine ⟨thunk, ⟨[], cs⟩, fun t more hst c d env r s' => ?_⟩
  cases hcs with
  | cons hname hcs =>
    cases hcs
    obtain rfl := hname.eq_of_part
    obtain ⟨a, items, rfl, -⟩ := Derived.looks_pair hoperator
    have hmeans : ∀ {a env₁ env₂ r s'} {u : Store} {p : Lambda},
        u.Ready (.user K.tag) a p env₁ env₂ →
          (inOrder c (d + 1) env₂ [.name K.tag] u r s' ↔ Run.done (.closure a) u r s') :=
      fun hready => alone_tail_symbol.trans (alone_found hready.means)
    have hvalue : ∀ r s', alone c d (.eval (.pair a) env) t r s' ↔
        within c d (recursively c (d + 1) env (.user K.tag) thunk _ _ fun f _ _ => .done f)
          t r s' := fun r s' => alone_nested.trans (within_congr
      (hruns hst c (d + 1) env r s' _ fun _ _ _ _ _ _ _ _ hready => hmeans hready))
    -- The reserve is left alone while the procedure is made, so the operands are still the same.
    have hreserves : ∀ f u, alone c d (.eval (.pair a) env) t (.value f) u →
        u.properList? operands = some K.inits := by
      intro f u hf
      have hmade := (hruns hst c (d + 1) env (.value f) u
        (fun f _ _ u r s' => (∃ most, s.Reserves own u most) ∧ Run.done f u r s')
        fun _ _ _ u most _ hu _ hready => (hmeans hready).trans
          (and_iff_right ⟨most, hu⟩).symm).mp (of_within (alone_nested.mp hf))
      obtain ⟨⟨most, hu⟩, -, rfl⟩ := of_within (recursively_iff.mp hmade)
      exact (happlication hu).2
    rw [alone_application (happlication hst).1 hreserves]
    exact andThen_congr hvalue fun _ _ _ => valuesOf_repeats

end Machine

/-! ### Loops as they are expanded -/

open Expansion (expandToplevel expand started maxDepth)

def Loop.codes (L : Loop) : List Value :=
  L.test :: (L.inits ++ L.steps ++ L.commands ++ L.results)

theorem Loop.Compiles.mono {R R' : Value → Value → Prop} {L M : Loop} (h : L.Compiles R M)
    (hR : ∀ v w, R v w → R' v w) : L.Compiles R' M where
  vars := h.vars
  inits := h.inits.imp hR
  steps := h.steps.imp hR
  test := hR _ _ h.test
  results := h.results.imp hR
  commands := h.commands.imp hR

namespace Derived

variable {env : Environment} {s t u last : Store} {own : Reserve} {v w form : Value} {K L M : Loop}
  {vs : List Value} {bound : List Symbol} {x y : Symbol} {ns : List String} {thunk p q : Lambda}

theorem Loop.Compiles.trans {P Q R : Value → Value → Prop}
    (hR : ∀ v v' v'', P v v' → Q v' v'' → R v v'') (h : K.Compiles P L) (h' : L.Compiles Q M) :
    K.Compiles R M where
  vars := h'.vars.trans h.vars
  inits := forall₂_trans hR h.inits h'.inits
  steps := forall₂_trans hR h.steps h'.steps
  test := hR _ _ _ h.test h'.test
  results := forall₂_trans hR h.results h'.results
  commands := forall₂_trans hR h.commands h'.commands

/-- The frames that the thunks open change the meaning of no identifier but the one that is bound
there. -/
theorem means_recursively (hx : x.isStamped) (hy : y ≠ x) (t : Store) (env : Environment) :
    let env₁ : Environment := ⟨t.frames.size, env.chain⟩
    let t₁ := (t.entered thunk env).defined x p env₁
    (t₁.entered q env₁).lookup? ⟨t₁.frames.size, env₁.chain⟩ y = t.lookup? env y ∧
      (t₁.entered q env₁).resolve? ⟨t₁.frames.size, env₁.chain⟩ y = t.resolve? env y := by
  intro env₁ t₁
  have hsize : t₁.frames.size = t.frames.size + 1 := size_defined.trans size_entered
  refine means_beyond (show _ = [t₁.frames.size, t.frames.size] ++ env.chain from rfl)
    (fun key hkey g => ?_) fun f hf key => bound?_eq_none ?_
  · have hne : key ≠ x := by
      rcases hkey with rfl | rfl
      · exact hy
      · rintro rfl
        cases hx
    exact ((bound?_entered g).trans (bound?_defined hne g)).trans (bound?_entered g)
  · simp only [List.mem_cons, List.not_mem_nil, or_false] at hf
    rcases hf with rfl | rfl
    · rw [hsize]
      exact Nat.le_succ _
    · exact Nat.le_refl _

theorem code_of_name {n : String} (h : Code env bound s u (.name n) w) : w = .name n := by
  obtain ⟨v, ⟨room, t, t', -, hexpand, -⟩, htreated⟩ := h
  rw [Expansion.expand_leaf (v := .name n) env room nofun] at hexpand
  cases hexpand
  exact treated_name htreated

theorem guest_codes (h : u.Looks own w (looping x L)) : ∀ v ∈ L.codes, u.Guest own v := by
  obtain ⟨v, hround⟩ := h.exists_of_has (T := rounding x L) (.item (.head _)
    (.item (.tail _ (.tail _ (.head _))) (.item (.tail _ (.tail _ (.head _)))
      (.item (.tail _ (.tail _ (.head _))) .here))))
  have hL := hosts_of_looks hround
  have hinits : ∀ v ∈ L.inits, u.Guest own v := fun v hv => h.guest_of_has (.item (.head _)
    (.item (.tail _ (.tail _ (.tail _ (.head _)))) (.item (.head _)
      (.item (.tail _ (.tail _ (.head _))) (.item (.tail _ (List.mem_map_of_mem hv)) .here)))))
  refine List.forall_mem_cons.mpr ⟨hL.test, ?_⟩
  simp only [List.forall_mem_append]
  exact ⟨⟨⟨hinits, hL.steps⟩, hL.commands⟩, hL.results⟩

/-- The value evaluates the first values of the loop and goes from round to round, by an identifier
of its own. -/
structure Iterates (env : Environment) (s u : Store) (K : Loop) (ns : List String) (own : Reserve)
    (bound : List Symbol) (x : Symbol) (thunk p q : Lambda) (L : Loop) (w : Value) : Prop where
  code : K.Compiles (Code env bound s u) L
  params : p.params = ns.map .user
  /-- A variable that is its own step keeps its value. -/
  kept : List.Forall₂ (fun k l => ∀ n, k = .name n → l = .name n) K.steps L.steps
  introduced : own.Has (.symbol x)
  fresh : Fresh s u L.codes x
  /-- Where the first values are evaluated all others mean what they meant. -/
  apart : ∀ (t : Store) (env : Environment) (y : Symbol), y ≠ x →
    let env₁ : Environment := ⟨t.frames.size, env.chain⟩
    let t₁ := (t.entered thunk env).defined x p env₁
    (t₁.entered q env₁).lookup? ⟨t₁.frames.size, env₁.chain⟩ y = t.lookup? env y ∧
      (t₁.entered q env₁).resolve? ⟨t₁.frames.size, env₁.chain⟩ y = t.resolve? env y
  runs : ∀ ⦃t more⦄, u.Reserves own t more → ∀ c d env' r s',
    alone c d (.tail w env') t r s' ↔ recursively c d env' x thunk p q
      (fun _ env₁ env₂ => valuesOf c d env₂ L.inits
        (repeats (L.GoesOn c d p.params env₁) (L.Ends c d p.params env₁))) t r s'

section Iterating

variable (hs : s.All s.Known) (hform : s.Known form)
  (hlist : s.properList? form = some (.symbol x :: vs)) (hx : x.name = "do")
  (hK : s.IsLoop vs K) (hvars : K.vars = ns.map Value.name)
  (hname : u.transformer? "loop" env.chain = none)

include hs hform hlist hx hK hvars hname

theorem looping_of_expand (hexpand : expand env (maxDepth + 1) form (started s) = .ok v last)
    (hlast : last.Expands u) (hstanding : Standing env last (started s)) :
    ∃ own U, (started s).Adds .none last own ∧ last.Looks own v U ∧ U.Legible ∧
      ∃ y L, U = looping y L ∧ y.isStamped ∧ y.name = "loop" ∧
        K.Compiles (Becomes env s u) L := by
  have hsafe : s.Safe .none := ⟨.none s, hs⟩
  have hguest : s.Guest .none form := ⟨hform, Reserve.not_has_none⟩
  have hstart := adds_started hs
  obtain ⟨-, hguests⟩ := List.forall_mem_cons.mp (hsafe.items hguest hlist)
  have hproper : (started s).properList? form = some (.symbol x :: vs) :=
    (properList?_grows hs hform hstart.expands.toGrows).trans hlist
  obtain ⟨own, U, hadds, hU, y, L, rfl, hy, hyname, hL⟩ := drafts_do (H := .part (.symbol x))
    hstart.safe hstanding (hlast.transformer?_eq_none hname)
    (fun v hv => hstart.guest (hguests v hv)) (isLoop_adds hsafe hstart hguests hK)
    (reads_part hstart.safe (hstart.guest hguest) hproper) (.inr rfl) hx (.refl hstart.safe)
    (.part (hstart.guest hguest)) hexpand (.refl last)
  exact ⟨own, _, hadds, hU, legible_looping hy (hL.vars.trans hvars), y, L, rfl, hy, hyname,
    hL.mono fun _ _ hw => (hw.earlier hstart.expands).later hlast⟩

theorem do_iterates (hdistinct : ns.Nodup) (hintact : Intact env s u)
    (h : expandToplevel env form s = .ok w u) :
    ∃ own bound y thunk p q L, u.Safe own ∧
      Iterates env s u K ns own bound y thunk p q L w := by
  obtain ⟨last, own, bound, U, W, hslast, hsafe, hW, ⟨y, M, rfl, hy, hyname, hM⟩, hsettled,
    hhas⟩ :=
    expandToplevel_settles hintact h fun v last hexpand hlast hstanding =>
      looping_of_expand hs hform hlist hx hK hvars hname hexpand hlast hstanding
  obtain ⟨hown, hnew, hbound⟩ := hhas y hy
    (.item (.head _) (.item (.tail _ (.tail _ (.head _))) (.item (.tail _ (.head _)) .here)))
  obtain ⟨L, rfl, hL⟩ := settled_looping hy (hbound.mpr binds_recursive) (hM.vars.trans hvars)
    hsettled
  have hcode : K.Compiles (Code env bound s u) L :=
    Loop.Compiles.trans (fun v v' v'' hv hv' => ⟨v', hv, hv'.earlier hslast⟩) hM hL
  have hkept : List.Forall₂ (fun k l => ∀ n, k = .name n → l = .name n) K.steps L.steps :=
    hcode.steps.imp fun k l hkl n hk => code_of_name (hk ▸ hkl)
  have hlength : ns.length = K.vars.length := by rw [hvars, List.length_map]
  obtain ⟨hinits, hsteps⟩ := hK.lengths
  obtain ⟨thunk, p, q, hp, hruns⟩ := runs_looping hsafe hW hown (by rw [hyname]; rfl)
    (hcode.vars.trans hvars) hdistinct (by rw [← hcode.inits.length_eq, hinits, hlength])
    (by rw [← hcode.steps.length_eq, hsteps, hlength])
  exact ⟨own, bound, y, thunk, p, q, L, hsafe, hcode, hp, hkept, hown,
    fresh_of_guests hsafe.secludes hown hnew (guest_codes hW),
    fun t env z hz => means_recursively hy hz t env, hruns⟩

end Iterating

/-- The value evaluates the first values and calls a procedure with them that calls itself by the
tag. -/
structure Recurses (env : Environment) (s u : Store) (K : Tagged) (own : Reserve)
    (bound : List Symbol) (thunk q : Lambda) (body inits : List Value) (w : Value) : Prop where
  code : List.Forall₂ (Code env bound s u) K.body body
  operands : List.Forall₂ (Code env bound s u) K.inits inits
  runs : ∀ ⦃t more⦄, u.Reserves own t more → ∀ c d env' r s',
    alone c d (.tail w env') t r s' ↔ ((within c d (recursively c (d + 1) env' (.user K.tag) thunk
      ⟨K.names.map .user, body⟩ q fun f _ _ => .done f)).andThen fun f =>
        valuesOf c d env' inits (repeats (Again c d f) (Finally c d f))) t r s'

theorem tagged_recurses {K : Tagged} (hs : s.All s.Known) (hform : s.Known form)
    (hlist : s.properList? form = some (.symbol x :: vs)) (hx : x.name = "let")
    (hK : s.IsTagged vs K) (htag : isCoreKeyword K.tag = false) (hdistinct : K.names.Nodup)
    (hintact : Intact env s u) (h : expandToplevel env form s = .ok w u) :
    ∃ own bound thunk q body inits, u.Safe own ∧
      Recurses env s u K own bound thunk q body inits w := by
  have hsafe : s.Safe .none := ⟨.none s, hs⟩
  have hguest : s.Guest .none form := ⟨hform, Reserve.not_has_none⟩
  have hstart := adds_started hs
  obtain ⟨-, hguests⟩ := List.forall_mem_cons.mp (hsafe.items hguest hlist)
  have hproper : (started s).properList? form = some (.symbol x :: vs) :=
    (properList?_grows hs hform hstart.expands.toGrows).trans hlist
  have hbecomes : ∀ {last v w}, last.Expands u → Becomes env (started s) last v w →
      Becomes env s u v w := fun hlast hw => (hw.earlier hstart.expands).later hlast
  obtain ⟨last, own, bound, U, W, hslast, hsafe, hW, ⟨body, inits, rfl, hbody, hinits⟩, hsettled,
    -⟩ := expandToplevel_settles
      (P := fun U => ∃ body inits, U = Sketch.tagged { K with body := body, inits := inits } ∧
        List.Forall₂ (Becomes env s u) K.body body ∧
        List.Forall₂ (Becomes env s u) K.inits inits) hintact h
      fun v last hexpand hlast hstanding => by
        obtain ⟨own, U, hadds, hU, body, inits, rfl, hbody, hinits⟩ := drafts_tagged
          (H := .part (.symbol x)) hstart.safe hstanding (fun v hv => hstart.guest (hguests v hv))
          (isTagged_adds hsafe hstart hguests hK)
          (reads_part hstart.safe (hstart.guest hguest) hproper) (.inr rfl) hx (.refl hstart.safe)
          (.part (hstart.guest hguest)) hexpand (.refl last)
        exact ⟨own, _, hadds, hU, legible_tagged, body, inits, rfl,
          hbody.imp fun _ _ => hbecomes hlast, hinits.imp fun _ _ => hbecomes hlast⟩
  obtain ⟨body', inits', rfl, hbody', hinits'⟩ := settled_tagged hsettled
  have hcode : ∀ v v' v'', Becomes env s u v v' → Treated (Renaming.code bound) last u v' v'' →
      Code env bound s u v v'' := fun v v' v'' hv hv' => ⟨v', hv, hv'.earlier hslast⟩
  have hcompiled := forall₂_trans hcode hbody hbody'
  have hnonempty : body' ≠ [] := by
    rintro rfl
    cases hK with
    | intro => cases hcompiled
  obtain ⟨thunk, q, hruns⟩ := runs_tagged hsafe hW htag hdistinct hnonempty
  exact ⟨own, bound, thunk, q, body', inits', hsafe, hcompiled, forall₂_trans hcode hinits hinits',
    hruns⟩

/-- A `do` form goes from round to round at the depth of the first one, and a `let` form with a tag
goes from each call of itself in tail position to the next one at the depth of the first. So the
depth limit is reported only if the last round reports it when it is run alone at that depth. -/
theorem loops_iterate (hs : s.All s.Known) (hform : s.Known form) (hintact : Intact env s u)
    (h : expandToplevel env form s = .ok w u) :
    (∀ x vs K ns, s.properList? form = some (.symbol x :: vs) → x.name = "do" → s.IsLoop vs K →
      K.vars = ns.map Value.name → ns.Nodup → u.transformer? "loop" env.chain = none →
        ∃ own bound y thunk p q L, u.Safe own ∧
          Iterates env s u K ns own bound y thunk p q L w) ∧
    ∀ x vs K, s.properList? form = some (.symbol x :: vs) → x.name = "let" → s.IsTagged vs K →
      isCoreKeyword K.tag = false → K.names.Nodup →
        ∃ own bound thunk q body inits, u.Safe own ∧
          Recurses env s u K own bound thunk q body inits w :=
  ⟨fun _ _ _ _ hlist hx hK hvars hdistinct hname =>
      do_iterates hs hform hlist hx hK hvars hname hdistinct hintact h,
    fun _ _ _ hlist hx hK htag hdistinct =>
      tagged_recurses hs hform hlist hx hK htag hdistinct hintact h⟩

/-- `(do ((go #t #f) (n 7)) ((if go #f #t) n) (set! n 3))` -/
def twoRounds : Datum :=
  .list [.name "do",
    .list [.list [.name "go", .bool true, .bool false], .list [.name "n", .int 7]],
    .list [.list [.name "if", .name "go", .bool false, .bool true], .name "n"],
    .list [.name "set!", .name "n", .int 3]]

theorem isLoop_twoRounds : (entered twoRounds).2.IsLoop [.pair 6, .pair 12, .pair 15]
    ⟨[.name "go", .name "n"], [.bool true, .int 7], [.bool false, .name "n"], .pair 10,
      [.name "n"], [.pair 15]⟩ := by
  have hspecs : (entered twoRounds).2.properList? (.pair 6) = some [.pair 2, .pair 4] := by cbv
  have hgo : (entered twoRounds).2.IsVariable (.pair 2)
      ⟨.name "go", .bool true, some (.bool false)⟩ := by
    unfold Store.IsVariable
    cbv
  have hn : (entered twoRounds).2.IsVariable (.pair 4) ⟨.name "n", .int 7, none⟩ := by
    unfold Store.IsVariable
    cbv
  have hclause : (entered twoRounds).2.properList? (.pair 12) = some [.pair 10, .name "n"] := by
    cbv
  exact .intro hspecs (.cons hgo (.cons hn .nil)) hclause

/-- `(let again ((go #t)) (if go (again #f) 3))` -/
def twoCalls : Datum :=
  .list [.name "let", .name "again", .list [.list [.name "go", .bool true]],
    .list [.name "if", .name "go", .list [.name "again", .bool false], .int 3]]

theorem isTagged_twoCalls : (entered twoCalls).2.IsTagged [.name "again", .pair 2, .pair 8]
    ⟨"again", ["go"], [.bool true], [.pair 8]⟩ := by
  have hpairs : (entered twoCalls).2.properList? (.pair 2) = some [.pair 1] := by cbv
  have hgo : (entered twoCalls).2.properList? (.pair 1) =
      some [.name ("go", Value.bool true).1, ("go", Value.bool true).2] := by cbv
  exact .intro hpairs (.cons hgo .nil)

/-- The first round runs the command, and the second one ends the loop. -/
theorem loops_iterate_twice :
    (gives (installed [] []) 100 twoRounds = some 3 ∧ ∃ w u K own bound y thunk p q L,
      expandToplevel ⟨0, []⟩ (entered twoRounds).1 (entered twoRounds).2 = .ok w u ∧ u.Safe own ∧
        Iterates ⟨0, []⟩ (entered twoRounds).2 u K ["go", "n"] own bound y thunk p q L w) ∧
    gives (installed [] []) 100 twoCalls = some 3 ∧ ∃ w u K own bound thunk q body inits,
      expandToplevel ⟨0, []⟩ (entered twoCalls).1 (entered twoCalls).2 = .ok w u ∧ u.Safe own ∧
        Recurses ⟨0, []⟩ (entered twoCalls).2 u K own bound thunk q body inits w := by
  refine ⟨⟨gives_of_passes (by decide +kernel), ?_⟩, gives_of_passes (by decide +kernel), ?_⟩
  · have hknown := known_entered (d := twoRounds) (by decide)
    obtain ⟨w, u, h, hintact, hnone⟩ := exists_of_expandsPlainly (d := twoRounds)
      (expandsPlainly_of_passes (by decide +kernel))
    have hlist : (entered twoRounds).2.properList? (entered twoRounds).1 =
        some [.symbol (.user "do"), .pair 6, .pair 12, .pair 15] := by cbv
    have hK := isLoop_twoRounds
    have hloop := hnone "loop" (by decide)
    generalize entered twoRounds = placed at hknown h hintact hlist hK ⊢
    obtain ⟨hs, hform⟩ := hknown
    obtain ⟨own, bound, y, thunk, p, q, L, hsafe, hiterates⟩ :=
      (loops_iterate hs hform hintact h).1 _ _ _ ["go", "n"] hlist rfl hK rfl (by decide) hloop
    exact ⟨w, u, _, own, bound, y, thunk, p, q, L, h, hsafe, hiterates⟩
  · have hknown := known_entered (d := twoCalls) (by decide)
    obtain ⟨w, u, h, hintact, -⟩ := exists_of_expandsPlainly (d := twoCalls)
      (expandsPlainly_of_passes (by decide +kernel))
    have hlist : (entered twoCalls).2.properList? (entered twoCalls).1 =
        some [.symbol (.user "let"), .name "again", .pair 2, .pair 8] := by cbv
    have hK := isTagged_twoCalls
    generalize entered twoCalls = placed at hknown h hintact hlist hK ⊢
    obtain ⟨hs, hform⟩ := hknown
    obtain ⟨own, bound, thunk, q, body, inits, hsafe, hrecurses⟩ :=
      (loops_iterate hs hform hintact h).2 _ _ _ hlist rfl hK rfl (by decide)
    exact ⟨w, u, _, own, bound, thunk, q, body, inits, h, hsafe, hrecurses⟩

/-- `(do ((i 0)) (#t 3))` -/
def oneRound : Datum :=
  .list [.name "do", .list [.list [.name "i", .int 0]], .list [.bool true, .int 3]]

/-- Where `loop` is the name of a transformer, the transformer is used instead of the loop. -/
theorem loop_captured :
    gives (installed [] [identityForm "loop"]) 60 oneRound = some 0 ∧
      gives (installed [] []) 60 oneRound = some 3 := by
  constructor <;> exact gives_of_passes (by decide +kernel)

end Derived

end HygienicScheme
