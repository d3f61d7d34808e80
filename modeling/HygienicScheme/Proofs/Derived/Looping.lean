import HygienicScheme.Proofs.Derived.Iterating

/-!
# Evaluating loops

The procedure that a `do` form becomes goes through one round and, unless the test holds, is called
again in tail position. So it goes from round to round at one depth, and what comes of the form is
what comes of the last round.
-/
namespace HygienicScheme

open Machine Run Store Sketch

namespace Store

variable {s t : Store} {own : Reserve} {forms vs : List Value} {c : Context} {d : Nat}
  {env : Environment} {L : Loop} {xs : List Symbol} {now next : List Value × Store}

theorem Safe.values (hs : s.Safe own) (hforms : ∀ v ∈ forms, s.Guest own v)
    (h : Values c d env forms s vs t) :
    s.Reserves own t own ∧ vs.length = forms.length ∧ ∀ v ∈ vs, t.Guest own v := by
  induction h with
  | nil => exact ⟨.refl hs.secludes hs.known, rfl, nofun⟩
  | cons hform _ ih =>
    obtain ⟨hguest, hmore⟩ := List.forall_mem_cons.mp hforms
    obtain ⟨hst, hv⟩ := hs.evaluated hguest hform
    obtain ⟨htu, hlength, hvs⟩ := ih hst.safe fun w hw => hst.guest (hmore w hw)
    exact ⟨hst.trans htu, congrArg Nat.succ hlength,
      List.forall_mem_cons.mpr ⟨htu.guest hv, hvs⟩⟩

structure Hosts (s : Store) (own : Reserve) (L : Loop) : Prop where
  test : s.Guest own L.test
  results : ∀ v ∈ L.results, s.Guest own v
  commands : ∀ v ∈ L.commands, s.Guest own v
  steps : ∀ v ∈ L.steps, s.Guest own v

theorem Hosts.reserves {more : Reserve} (h : s.Hosts own L) (hst : s.Reserves own t more) :
    t.Hosts more L where
  test := hst.guest h.test
  results v hv := hst.guest (h.results v hv)
  commands v hv := hst.guest (h.commands v hv)
  steps v hv := hst.guest (h.steps v hv)

structure Recurs (s : Store) (own : Reserve) (x : Symbol) (a : Address) (p : Lambda)
    (env : Environment) : Prop where
  reserved : own.closures a
  introduced : own.Has (.symbol x)
  code : s.closureAt a = p.closure env (some x.name)
  bound : s.bound? env.frame x = some (.closure a)

theorem Recurs.reserves {more : Reserve} {x : Symbol} {a : Address} {p : Lambda}
    (h : s.Recurs own x a p env) (hst : s.Reserves own t more) : t.Recurs more x a p env where
  reserved := hst.le.closures a h.reserved
  introduced := hst.le.has h.introduced
  code := (hst.spares.closureAt_eq a h.reserved).trans h.code
  bound := (hst.spares.bound_eq _ (lt_of_bound h.bound) x h.introduced).trans h.bound

theorem Safe.goesOn (hs : now.2.Safe own) (hL : now.2.Hosts own L)
    (hnow : ∀ v ∈ now.1, now.2.Guest own v) (h : L.GoesOn c d xs env now next) :
    now.2.Reserves own next.2 own ∧ now.2.frames.size < next.2.frames.size ∧
      next.1.length = L.steps.length ∧ ∀ v ∈ next.1, next.2.Guest own v := by
  obtain ⟨v, t, htest, -, us, u, hcommands, hsteps⟩ := h
  have hopened : now.2.Reserves own
      { now.2 with frames := now.2.frames.push ⟨xs.zip now.1, []⟩ } own :=
    hs.child fun b hb => hnow b.2 (List.of_mem_zip hb).2
  obtain ⟨htested, -⟩ := hopened.safe.evaluated (hopened.guest hL.test) htest
  have hbefore := hopened.trans htested
  obtain ⟨hcommanded, -, -⟩ := hbefore.safe.values
    (fun v hv => hbefore.guest (hL.commands v hv)) hcommands
  have hlater := hbefore.trans hcommanded
  obtain ⟨hstepped, hlength, hvs⟩ := hlater.safe.values
    (fun v hv => hlater.guest (hL.steps v hv)) hsteps
  refine ⟨hlater.trans hstepped, ?_, hlength, hvs⟩
  have hframes := ((htested.trans hcommanded).trans hstepped).spares.frames_le
  rw [Array.size_push] at hframes
  exact hframes

end Store

namespace Machine

variable {c : Context} {d : Nat} {env env₁ : Environment} {s s' t u : Store} {r : Result}
  {own more : Reserve} {v f : Value} {forms vs : List Value} {x : Symbol} {xs : List Symbol}
  {L : Loop} {a : Address} {name : Option String}

theorem inOrder_append_single {form : Value} : inOrder c d env (forms ++ [form]) s r s' ↔
    valuesOf c d env forms (fun _ => alone c d (.tail form env)) s r s' := by
  induction forms generalizing s with
  | nil => exact Iff.rfl
  | cons first more ih =>
    have hmore : inOrder c d env (first :: more ++ [form]) =
        (alone c d (.eval first env)).andThen fun _ => inOrder c d env (more ++ [form]) := by
      cases more <;> rfl
    rw [hmore, valuesOf]
    exact andThen_congr (fun _ _ => Iff.rfl) fun _ _ _ => ih

theorem inOrder_nothing (h : s.Looks own v (.form "if" [.atom (.bool false), .atom (.bool false)]))
    (hst : s.Reserves own t more) (hd : d < c.maxDepth) :
    inOrder c d env (v :: vs) t r s' ↔ inOrder c d env vs t r s' := by
  cases vs with
  | nil => exact runs_unspecified h hst c d env r s'
  | cons w vs =>
    obtain ⟨a, -, rfl, -⟩ := Derived.looks_pair h
    have hnothing : ∀ r t', alone c d (.eval (.pair a) env) t r t' ↔
        Run.done .unspecified t r t' := fun r t' =>
      (alone_nested.trans (within_iff_of_lt hd)).trans (runs_unspecified h hst c (d + 1) env r t')
    change ((alone c d (.eval (.pair a) env)).andThen fun _ => inOrder c d env (w :: vs)) t r s' ↔ _
    rw [andThen_congr hnothing fun _ _ _ => Iff.rfl, andThen_done]

theorem runs_again (h : s.Looks own v (again x vs)) (hx : x.isStamped)
    (hst : s.Reserves own t more) (hmeans : t.lookup? env x = some f) :
    alone c d (.tail v env) t r s' ↔
      valuesOf c d env vs (fun ws => alone c d (.apply f ws)) t r s' := by
  obtain ⟨operator, operands, ws, hoperator, hws, happlication⟩ := h.application (by
    rintro y (hy | hy) <;> cases hy
    simp [specialForm?, SpecialForm.ofSymbol?, hx])
  obtain rfl := hoperator.eq_of_atom
  obtain ⟨rfl, -⟩ := Derived.lookAll_parts.mp hws
  have hfound : ∀ r s', alone c d (.eval (.symbol x) env) t r s' ↔ Run.done f t r s' :=
    fun _ _ => alone_found hmeans
  have hoperands : ∀ g u, alone c d (.eval (.symbol x) env) t (.value g) u →
      u.properList? operands = some ws := by
    intro g u hg
    obtain ⟨-, rfl⟩ := (hfound _ _).mp hg
    exact (happlication hst).2
  rw [alone_application (happlication hst).1 hoperands,
    andThen_congr hfound fun _ _ _ => Iff.rfl, andThen_done]

theorem hosts_of_looks (h : s.Looks own v (rounding x L)) : s.Hosts own L where
  test := h.guest_of_has (.item (.tail _ (.head _)) .here)
  results _ hw := h.guest_of_has (.item (.tail _ (.tail _ (.head _)))
    (.item (.tail _ (.tail _ (List.mem_map_of_mem hw))) .here))
  commands _ hw := h.guest_of_has (.item (.tail _ (.tail _ (.tail _ (.head _))))
    (.item (.tail _ (List.mem_append_left _ (List.mem_map_of_mem hw))) .here))
  steps _ hw := h.guest_of_has (.item (.tail _ (.tail _ (.tail _ (.head _))))
    (.item (.tail _ (List.mem_append_right _ (.head _)))
      (.item (.tail _ (List.mem_map_of_mem hw)) .here)))

theorem runs_round (h : s.Looks own v (rounding x L)) (hx : x.isStamped)
    (hst : s.Reserves own t more) (hd : d < c.maxDepth)
    (hmeans : ∀ u, t.Reserves more u more → u.lookup? env x = some f) :
    alone c d (.tail v env) t r s' ↔ ((alone c d (.eval L.test env)).andThen fun b =>
      if b.isTrue then inOrder c d env L.results
      else L.turn c d env fun ws => alone c d (.apply f ws)) t r s' := by
  have hL := (hosts_of_looks h).reserves hst
  obtain ⟨test, yes, no, htest, hyes, hno, hbranch⟩ := runs_branch h (by simp)
  obtain rfl := htest.eq_of_part
  cases hno with
  | @cons no _ _ _ hno hmore =>
    cases hmore
    obtain ⟨rs, hrs, hresults⟩ := runs_sequence hyes
    obtain ⟨cs, hcs, hcommands⟩ := runs_sequence hno
    rw [hbranch hst]
    refine andThen_congr (fun _ _ => Iff.rfl) fun b t' hb => ?_
    obtain ⟨htt', -⟩ := hst.safe.evaluated hL.test hb
    have hst' := hst.trans htt'
    split
    · cases hrs with
      | cons hnothing hrs =>
        obtain ⟨rfl, -⟩ := Derived.lookAll_parts.mp hrs
        rw [hresults hst', inOrder_nothing hnothing hst' hd]
    · obtain ⟨us, ws, rfl, hus, hws⟩ := Derived.exists_of_forall₂_append hcs.flip
      obtain ⟨rfl, -⟩ := Derived.lookAll_parts.mp hus.flip
      cases hws with
      | cons hagain hws =>
        cases hws
        change alone c d (.tail no env) t' r s' ↔ _
        rw [hcommands hst', inOrder_append_single]
        refine valuesOf_congr htt'.safe (fun v hv => htt'.guest (hL.commands v hv)) ?_
        intro _ u hu _ _
        exact runs_again hagain hx (hst'.trans hu) (hmeans u (htt'.trans hu))

theorem applies_round (h : s.Looks own v (rounding x L)) (hst : s.Reserves own t more)
    (hd : d < c.maxDepth) (ha : t.Recurs more x a ⟨xs, [v]⟩ env)
    (hxs : ∀ y ∈ xs, y.isStamped = false) (hdistinct : xs.Nodup) (hlength : vs.length = xs.length)
    (hvs : ∀ v ∈ vs, t.Guest more v) :
    alone c d (.apply (.closure a) vs) t r s' ↔
      L.round c d xs env vs (fun ws => alone c d (.apply (.closure a) ws)) t r s' := by
  have hx : x.isStamped := ha.introduced.1
  have hbind : Procedure.bind (t.closureAt a) vs t =
      (liftM (Build.child env (xs.zip vs)) : Action Environment) t := by
    rw [ha.code]
    exact Procedure.bind_lambda hdistinct hlength
  have hopened : t.Reserves more { t with frames := t.frames.push ⟨xs.zip vs, []⟩ } more :=
    hst.safe.child fun b hb => hvs b.2 (List.of_mem_zip hb).2
  have hnone : (xs.zip vs).lookup x = none := by
    refine List.lookup_eq_none_iff.mpr fun b hb => bne_iff_ne.mpr ?_
    rintro rfl
    exact Bool.noConfusion ((hxs _ (List.of_mem_zip hb).1).symm.trans hx)
  rw [alone_closure, doing, hbind, ← doing, doing_lift, Loop.round, doing_lift, ha.code]
  refine runs_round h hx (hst.trans hopened) hd fun u hu => ?_
  refine lookup?_outer ?_ (ha.reserves (hopened.trans hu)).bound
  have hframe : t.frames.size < (t.frames.push ⟨xs.zip vs, []⟩).size := by
    rw [Array.size_push]
    exact Nat.lt_succ_self _
  exact (hu.spares.bound_eq _ hframe x ha.introduced).trans (bound?_opened.trans hnone)

theorem applies_rounds (h : s.Looks own v (rounding x L)) (hst : s.Reserves own t more)
    (hd : d < c.maxDepth) (ha : t.Recurs more x a ⟨xs, [v]⟩ env)
    (hxs : ∀ y ∈ xs, y.isStamped = false) (hdistinct : xs.Nodup)
    (hsteps : L.steps.length = xs.length) (hlength : vs.length = xs.length)
    (hvs : ∀ v ∈ vs, t.Guest more v) :
    alone c d (.apply (.closure a) vs) t r s' ↔
      repeats (L.GoesOn c d xs env) (L.Ends c d xs env) vs t r s' := by
  let P : List Value × Store → Prop := fun now => t.Reserves more now.2 more ∧
    now.1.length = xs.length ∧ ∀ v ∈ now.1, now.2.Guest more v
  refine repeats_iff (P := P) ?_ ?_ ⟨.refl hst.secludes hst.known, hlength, hvs⟩
  · rintro now ⟨hnow, hlength, hvs⟩ r s'
    rw [applies_round h (hst.trans hnow) hd (ha.reserves hnow) hxs hdistinct hlength hvs,
      Loop.round_iff]
  · rintro now next ⟨hnow, hlength, hvs⟩ hgoes
    have hL := (hosts_of_looks h).reserves (hst.trans hnow)
    obtain ⟨hnext, hframes, hlength', hws⟩ := hnow.safe.goesOn hL hvs hgoes
    exact ⟨⟨hnow.trans hnext, hlength'.trans hsteps, hws⟩, hframes⟩

theorem formals_names {ns : List String} :
    Formals (.list (parts (ns.map Value.name))) (ns.map Symbol.user) := by
  refine .list ?_
  rw [List.forall₂_map_left_iff, List.forall₂_map_left_iff, List.forall₂_map_right_iff,
    List.forall₂_same]
  exact fun _ _ => .inr rfl

theorem runs_looping {ns : List String} (hs : s.Safe own) (h : s.Looks own v (looping x L))
    (hown : own.Has (.symbol x)) (hx : isCoreKeyword x.name = false)
    (hvars : L.vars = ns.map Value.name) (hdistinct : ns.Nodup)
    (hinits : L.inits.length = ns.length) (hsteps : L.steps.length = ns.length) :
    ∃ thunk p q : Lambda, p.params = ns.map .user ∧ ∀ ⦃t more⦄, s.Reserves own t more →
      ∀ c d env r s', alone c d (.tail v env) t r s' ↔ recursively c d env x thunk p q
        (fun _ env₁ env₂ => valuesOf c d env₂ L.inits
          (repeats (L.GoesOn c d p.params env₁) (L.Ends c d p.params env₁))) t r s' := by
  have hxs : (ns.map Symbol.user).Nodup :=
    hdistinct.map fun n m hnm => by injection hnm
  have huser : ∀ y ∈ ns.map Symbol.user, y.isStamped = false := by
    simp [Symbol.user, Symbol.isStamped]
  rw [looping, hvars] at h
  obtain ⟨thunk, bs, cs, hbs, hcs, hruns⟩ := runs_recursive hs h (.inl rfl) hx formals_names hxs
    (by simp) (by simp) fun hnot => absurd hown hnot
  cases hbs with
  | cons hround hbs =>
    cases hbs
    cases hcs with
    | cons hcall hcs =>
      cases hcs
      refine ⟨thunk, _, _, rfl, fun t more hst c d env r s' => hruns hst c d env r s' _ ?_⟩
      intro a env₁ env₂ u most hd hu hclosure hready
      have hrecurs : u.Recurs most x a _ env₁ :=
        ⟨hclosure hown, hu.le.has hown, hready.code, hready.bound⟩
      change alone c d (.tail _ env₂) u r s' ↔ _
      rw [runs_again hcall hown.1 hu hready.means]
      refine valuesOf_congr hu.safe (fun v hv => hu.guest (hcall.guest_of_has
        (.item (.tail _ (List.mem_map_of_mem hv)) .here))) ?_
      intro ws t' ht' hlength hws
      refine applies_rounds hround (hu.trans ht') hd (hrecurs.reserves ht') huser hxs ?_ ?_ hws
      · rw [hsteps, List.length_map]
      · rw [hlength, hinits, List.length_map]

end Machine

end HygienicScheme
