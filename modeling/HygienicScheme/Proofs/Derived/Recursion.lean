import HygienicScheme.Proofs.Derived.Pieces

/-!
# Procedures that know themselves

A `letrec` form of one variable becomes the call of a thunk. It opens a frame, binds the variable
there to a procedure of that frame, and then opens another one for its body.
-/
namespace HygienicScheme

open Machine Run Store

namespace Sketch

/-- `((lambda () (define x definiens) ((lambda () body ...))))` -/
abbrev recursive (target definiens : Sketch) (body : List Sketch) : Sketch :=
  .list [.form "lambda" [.atom .null, .form "define" [target, definiens],
    .list [.form "lambda" (.list [] :: body)]]]

variable {N C : Sketch} {Cs Bs : List Sketch} {x : Symbol} {ns : List String}

theorem legible_lambda (h : ∀ T ∈ Bs, T.Legible) :
    (form "lambda" (.list (parts (ns.map Value.name)) :: Bs)).Legible :=
  .binding (.inl rfl) .names h

theorem legible_recursive (hN : N.Flat) (hC : C.Legible) (hCs : ∀ T ∈ Cs, T.Legible) :
    (recursive N C Cs).Legible := by
  have hplain : ∀ {Ts : List Sketch}, (Sketch.list Ts).Plain := by
    rintro Ts y (hy | hy) <;> cases hy
  have hdefine : (form "define" [N, C]).Legible :=
    .binding (.inr rfl) hN (List.forall_mem_singleton.mpr hC)
  have hbody : (form "lambda" (.list (parts ([].map Value.name)) :: Cs)).Legible :=
    legible_lambda hCs
  have hcall : (Sketch.list [form "lambda" (.list [] :: Cs)]).Legible :=
    .list hplain (List.forall_mem_singleton.mpr hbody)
  refine .list hplain (List.forall_mem_singleton.mpr (.binding (.inl rfl) .null ?_))
  exact List.forall_mem_cons.mpr ⟨hdefine, List.forall_mem_singleton.mpr hcall⟩

theorem binds_recursive : (recursive (.atom (.symbol x)) C Cs).Binds x :=
  .item (.head _) (.item (.tail _ (.tail _ (.head _))) (.one (.inr rfl)))

end Sketch

namespace Derived

open Sketch

variable {s u : Store} {bound : List Symbol} {N C W : Sketch} {Bs Cs : List Sketch}
  {ns : List String}

theorem treated_name {n : String} {w : Value} (h : Treated (Renaming.code bound) s u (.name n) w) :
    w = .name n := by
  rcases h with ⟨_, _, _, _, _, rfl⟩ | ⟨_, _, _, _, hcode, _⟩
  · rfl
  · exact (code_bare (.inr ⟨n, rfl⟩) hcode).1

theorem settled_of_names (h : Settled bound s u (.list (parts (ns.map Value.name))) W) :
    W = .list (parts (ns.map Value.name)) := by
  generalize hT : Sketch.list (parts (ns.map Value.name)) = T at h
  cases h with
  | atom | part => cases hT
  | list _ h =>
    cases hT
    obtain ⟨ws, rfl, hws⟩ := settled_of_parts h
    suffices hsame : ns.map Value.name = ws by rw [hsame]
    rw [List.forall₂_map_left_iff] at hws
    rw [← List.forall₂_eq_eq_eq, List.forall₂_map_left_iff]
    exact hws.imp fun n w hw => (treated_name hw).symm
  | quote => cases ns <;> cases hT

theorem settled_of_lambda
    (h : Settled bound s u (.form "lambda" (.list (parts (ns.map Value.name)) :: Bs)) W) :
    ∃ Cs, W = .form "lambda" (.list (parts (ns.map Value.name)) :: Cs) ∧
      List.Forall₂ (Settled bound s u) Bs Cs := by
  obtain ⟨Us, rfl, hUs⟩ := settled_of_form (by simp) h
  cases hUs with
  | cons hF hCs =>
    obtain rfl := settled_of_names hF
    exact ⟨_, rfl, hCs⟩

theorem settled_of_recursive (h : Settled bound s u (.recursive N C Cs) W) :
    ∃ N' C' Cs', W = .recursive N' C' Cs' ∧ Settled bound s u N N' ∧ Settled bound s u C C' ∧
      List.Forall₂ (Settled bound s u) Cs Cs' := by
  obtain ⟨U, Us, rfl, hthunk, hUs⟩ := settled_of_list (T := .form "lambda" _) nofun h
  cases hUs
  obtain ⟨Vs, rfl, hVs⟩ := settled_of_form (by simp) hthunk
  cases hVs with
  | cons hnull hVs =>
    cases hVs with
    | cons hdefine hVs =>
      cases hVs with
      | cons hcall hVs =>
        cases hVs
        obtain rfl := settled_of_atom hnull
        obtain ⟨Ns, rfl, hNs⟩ := settled_of_form (by simp) hdefine
        obtain ⟨B, Bs, rfl, hB, hBs⟩ := settled_of_list (T := .form "lambda" _) nofun hcall
        cases hBs
        have hnone : Settled bound s u
          (.form "lambda" (.list (parts ([].map Value.name)) :: Cs)) B := hB
        obtain ⟨Cs', rfl, hCs⟩ := settled_of_lambda hnone
        cases hNs with
        | cons hN hNs =>
          cases hNs with
          | cons hC hNs =>
            cases hNs
            exact ⟨_, _, Cs', rfl, hN, hC, hCs⟩

end Derived

namespace Store

variable {s t : Store} {own more : Reserve} {env : Environment} {p q : Lambda} {x : Symbol}
  {v : Value} {f g : Address} {name : Option String} {outer : List Address}

theorem Reserves.bind (h : s.Reserves own t more) (hf : s.frames.size ≤ f) (hv : t.Known v)
    (hown : ¬ more.Has (.symbol x) → ¬ more.Has v) : s.Reserves own (t.bind f x v) more where
  le := h.le
  fresh := h.fresh
  outgrows := h.outgrows.trans (outgrows_of_eq (Nat.le_refl _) rfl rfl rfl)
  spares :=
    { h.spares with
      frames_le := by simpa [Store.bind, modifyFrame] using h.spares.frames_le
      bound_eq := fun g hg y hy => by
        rw [bound?_bind, if_neg]
        · exact h.spares.bound_eq g hg y hy
        · rintro ⟨-, rfl, -⟩
          exact Nat.not_lt.mpr hf hg }
  secludes := h.secludes.bind f x hown
  known := (knowing.bind f x trivial h.known hv).1

/-- A new procedure is in the reserve, unless its code is the user's. -/
theorem Reserves.closure (h : s.Reserves own t more) (hp : ∀ v ∈ p.body, t.Known v)
    (hcode : ¬ own.Has (.symbol x) → ∀ v ∈ p.body, t.Guest more v) : ∃ most,
      s.Reserves own { t with closures := t.closures.push (p.closure env name) } most ∧
      (own.Has (.symbol x) → most.closures t.closures.size) ∧
      (¬ most.Has (.symbol x) → ¬ most.Has (.closure t.closures.size)) := by
  by_cases hx : own.Has (.symbol x)
  · have hclosure : s.Reserves own { t with closures := t.closures.push (p.closure env name) } _ :=
      h.trans (h.safe.closure hp name)
    exact ⟨_, hclosure, fun _ => .inl rfl, fun hnot => absurd (hclosure.le.has hx) hnot⟩
  · have hguests := hcode hx
    let closure := p.closure env name
    have hsecluded : ({ t with closures := t.closures.push closure } : Store).Secludes more :=
      h.secludes.push_closure fun v hv => (hguests v hv).apart
    exact ⟨more, h.trans (.of_kept ⟨hsecluded, h.secludes.spares_closure closure⟩
      ⟨known_closure h.known hp, outgrows_closure closure⟩), fun hnot => absurd hnot hx,
      fun _ => h.secludes.not_has_next⟩

theorem lookup?_outer (hframe : s.bound? f x = none) (h : s.bound? g x = some v) :
    s.lookup? ⟨f, g :: outer⟩ x = some v := by
  rw [bound?] at hframe h
  rw [lookup?, Environment.chain, lookupExact?, hframe, lookupExact?, h]

structure Ready (s : Store) (x : Symbol) (a : Address) (p : Lambda) (env env' : Environment) :
    Prop where
  code : s.closureAt a = p.closure env (some x.name)
  bound : s.bound? env.frame x = some (.closure a)
  means : s.lookup? env' x = some (.closure a)

def defined (s : Store) (x : Symbol) (p : Lambda) (env : Environment) : Store :=
  ({ s with closures := s.closures.push (p.closure env (some x.name)) } : Store).bind env.frame x
    (.closure s.closures.size)

def entered (s : Store) (q : Lambda) (env : Environment) : Store :=
  { s with
    closures := s.closures.push (q.closure env none)
    frames := s.frames.push ⟨[], []⟩ }

theorem bound?_entered (g : Address) : (t.entered q env).bound? g x = t.bound? g x :=
  bound?_opened_eq (s := { t with closures := t.closures.push (q.closure env none) }) rfl g

theorem bound?_defined {y : Symbol} (hy : y ≠ x) (g : Address) :
    (t.defined x p env).bound? g y = t.bound? g y := by
  unfold defined
  rw [bound?_bind, if_neg fun h => hy h.2.2]
  rfl

theorem size_entered : (t.entered q env).frames.size = t.frames.size + 1 := Array.size_push _

theorem size_defined : (t.defined x p env).frames.size = t.frames.size := by
  simp [defined, Store.bind, modifyFrame]

theorem Reserves.defined (h : s.Reserves own t more) (hframe : s.frames.size ≤ env.frame)
    (hp : ∀ v ∈ p.body, t.Known v)
    (hcode : ¬ own.Has (.symbol x) → ∀ v ∈ p.body, t.Guest more v) : ∃ most,
      s.Reserves own (t.defined x p env) most ∧
        (own.Has (.symbol x) → most.closures t.closures.size) := by
  obtain ⟨most, hmost, hown, hbind⟩ : ∃ most, s.Reserves own
      { t with closures := t.closures.push (p.closure env (some x.name)) } most ∧ _ :=
    h.closure hp hcode
  refine ⟨most, hmost.bind hframe ?_ hbind, hown⟩
  simp [Known]

theorem Reserves.entered (h : s.Reserves own t more) (hq : ∀ v ∈ q.body, t.Known v) :
    s.Reserves own (t.entered q env) (more.withClosure t.closures.size) := by
  have hclosure : t.Reserves more { t with closures := t.closures.push (q.closure env none) } _ :=
    h.safe.closure hq none
  have hchild := hclosure.safe.child (List.forall_mem_nil fun b : Symbol × Value => _)
  exact (h.trans hclosure).trans hchild

theorem ready_entered (hframe : env.frame < t.frames.size) :
    ((t.defined x p env).entered q env).Ready x t.closures.size p env
      ⟨(t.defined x p env).frames.size, env.chain⟩ := by
  have hbound : ((t.defined x p env).entered q env).bound? env.frame x =
      some (.closure t.closures.size) := by
    have hkeeps := keepsBindings_push (s := t.defined x p env) ⟨[], []⟩ env.frame
      (by simpa [defined, Store.bind, modifyFrame] using hframe) x
    refine hkeeps.trans ?_
    rw [defined, bound?_bind, if_pos ⟨hframe, rfl, rfl⟩]
  refine ⟨?_, hbound, lookup?_outer ?_ hbound⟩
  · have hcode : (t.defined x p env).closureAt t.closures.size = p.closure env (some x.name) :=
      closureAt_push.trans (if_pos rfl)
    refine (closureAt_push.trans (if_neg ?_)).trans hcode
    simp [defined, Store.bind, modifyFrame]
  · have hopened : ((t.defined x p env).entered q env).frameAt (t.defined x p env).frames.size =
        ⟨[], []⟩ := by simp [entered, frameAt]
    rw [bound?, hopened]
    rfl

end Store

namespace Machine

variable {c : Context} {d : Nat} {env : Environment} {s s' t u : Store} {r : Result}
  {own more : Reserve} {v w : Value} {x : Symbol} {xs : List Symbol} {N F : Sketch} {p q : Lambda}
  {Bs Cs : List Sketch} {R R' : Run} {first : Run} {next : Value → Run}

theorem within_iff_of_lt (h : d < c.maxDepth) : within c d R s r s' ↔ R s r s' := by
  rw [within, if_neg (Nat.not_le.mpr h)]

theorem within_congr_of_lt (h : d < c.maxDepth → (R s r s' ↔ R' s r s')) :
    within c d R s r s' ↔ within c d R' s r s' := by
  unfold within
  split
  · exact Iff.rfl
  · exact h (Nat.lt_of_not_le ‹_›)

theorem andThen_value_iff (h : ∀ r t', first t r t' ↔ Run.done v u r t') :
    first.andThen next t r s' ↔ next v u r s' := by
  unfold Run.andThen
  constructor
  · rintro (⟨w, u', hw, hnext⟩ | ⟨hr, hfirst⟩)
    · obtain ⟨⟨⟩, rfl⟩ := (h _ _).mp hw
      exact hnext
    · exact absurd ((h _ _).mp hfirst).1 (hr v)
  · exact fun hnext => .inl ⟨v, u, (h _ _).mpr ⟨rfl, rfl⟩, hnext⟩

theorem andThen_definition {definition definiens formals : Value} (hd : d < c.maxDepth)
    (h : s.IsSpecial definition .define [.symbol x, definiens])
    (hp : s.IsLambda definiens formals p) (hx : isCoreKeyword x.name = false)
    (hbinds : s.bound? env.frame x = none) :
    (alone c d (.eval definition env)).andThen next s r s' ↔
      next .unspecified (s.defined x p env) r s' := by
  have hnone : s.binds env x = false := by rw [binds_eq, hbinds]; rfl
  refine andThen_value_iff fun r t' => ?_
  obtain ⟨a, rfl, -⟩ := id h
  rw [alone_nested, within_iff_of_lt hd, alone_definition h hp hx hnone, doing_lift, doing_change]
  exact Iff.rfl

def recursively (c : Context) (d : Nat) (env : Environment) (x : Symbol) (thunk p body : Lambda)
    (next : Value → Environment → Environment → Run) : Run :=
  within c d (.doing (liftM (Build.closure (thunk.closure env none))) fun _ =>
    .doing (liftM (Build.child env [])) fun env₁ =>
      .doing (liftM (Build.closure (p.closure env₁ (some x.name)))) fun f =>
        .doing (.change (·.bind env₁.frame x f)) fun _ =>
          .doing (liftM (Build.closure (body.closure env₁ none))) fun _ =>
            .doing (liftM (Build.child env₁ [])) fun env₂ => next f env₁ env₂)

theorem recursively_iff {thunk : Lambda} {next : Value → Environment → Environment → Run} :
    recursively c d env x thunk p q next s r s' ↔ within c d (fun s r s' =>
      let t := s.entered thunk env
      let env₁ : Environment := ⟨s.frames.size, env.chain⟩
      next (.closure t.closures.size) env₁ ⟨(t.defined x p env₁).frames.size, env₁.chain⟩
        ((t.defined x p env₁).entered q env₁) r s') s r s' := by
  refine within_congr ?_
  rw [doing_lift, doing_lift, doing_lift, doing_change, doing_lift, doing_lift]
  exact Iff.rfl

theorem invoking_thunk {next : List Value → Environment → Run} (hq : q.params = []) :
    invoking c d env q [] next s r s' ↔ within c d (fun s r s' =>
      next [] ⟨s.frames.size, env.chain⟩ (s.entered q env) r s') s r s' := by
  refine within_congr ?_
  rw [doing_lift, valuesOf, doing_lift, hq]
  exact Iff.rfl

theorem runs_recursive (hs : s.Safe own)
    (h : s.Looks own v (.recursive N (.form "lambda" (F :: Bs)) Cs)) (hN : N.Is x)
    (hx : isCoreKeyword x.name = false) (hF : F.Formals xs) (hdistinct : xs.Nodup)
    (hBs : Bs ≠ []) (hCs : Cs ≠ [])
    (hcode : ¬ own.Has (.symbol x) → ∀ B ∈ Bs, ∃ w, B = .part w) :
    ∃ thunk bs cs, s.LookAll own bs Bs ∧ s.LookAll own cs Cs ∧
      ∀ ⦃t more⦄, s.Reserves own t more → ∀ c d env r s'
        (next : Value → Environment → Environment → Run),
        (∀ a env₁ env₂ u most, d < c.maxDepth → s.Reserves own u most →
          (own.Has (.symbol x) → most.closures a) → u.Ready x a ⟨xs, bs⟩ env₁ env₂ →
          (inOrder c d env₂ cs u r s' ↔ next (.closure a) env₁ env₂ u r s')) →
        (alone c d (.tail v env) t r s' ↔
          recursively c d env x thunk ⟨xs, bs⟩ ⟨[], cs⟩ next t r s') := by
  obtain ⟨os, hos, hthunk⟩ := calls hs (show s.Looks own v (.list (_ :: [].map .part)) from h)
    .null List.nodup_nil rfl (by simp)
  cases hos with
  | @cons define _ os _ hdefine hos =>
    cases hos with
    | @cons call _ os _ hcall hos =>
      cases hos
      obtain ⟨cs, hcs, hbody⟩ := calls hs
        (show s.Looks own call (.list (_ :: [].map .part)) from hcall) (.list .nil) List.nodup_nil
          rfl hCs
      obtain ⟨operands, hoperands, hspecial⟩ :=
        hdefine.special (show _ = some SpecialForm.define from rfl)
      cases hoperands with
      | @cons target _ operands _ htarget hoperands =>
        cases hoperands with
        | @cons definiens _ operands _ hdefiniens hoperands =>
          cases hoperands
          obtain rfl : target = .symbol x := by
            rcases hN with rfl | rfl
            · exact htarget.eq_of_atom
            · exact htarget.eq_of_part
          obtain ⟨formals, bs, hbs, hlambda⟩ := hdefiniens.lambda hF hdistinct hBs
          refine ⟨⟨[], [define, call]⟩, bs, cs, hbs, hcs, ?_⟩
          intro t more hst c d env r s' next hnext
          rw [hthunk hst, recursively_iff, invoking_thunk rfl]
          refine within_congr_of_lt fun hd => ?_
          have hknown : ∀ {vs Vs u most}, s.LookAll own vs Vs → s.Reserves own u most →
              ∀ v ∈ vs, u.Known v := fun hvs hu v hv => (hvs.known hs v hv).outgrows hu.outgrows
          have hentered : s.Reserves own (t.entered ⟨[], [define, call]⟩ env) _ :=
            hst.entered (hknown (.cons hdefine (.cons hcall .nil)) hst)
          have hempty : (t.entered ⟨[], [define, call]⟩ env).bound? t.frames.size x = none :=
            (bound?_entered _).trans (bound?_eq_none (Nat.le_refl _))
          have hframe : t.frames.size < (t.entered ⟨[], [define, call]⟩ env).frames.size :=
            size_entered ▸ Nat.lt_succ_self _
          generalize t.entered ⟨[], [define, call]⟩ env = u at *
          -- Both forms of the thunk are evaluated in its frame, which binds nothing yet.
          let env₁ : Environment := ⟨t.frames.size, env.chain⟩
          obtain ⟨most, hdefined, hown⟩ :
              ∃ most, s.Reserves own (u.defined x ⟨xs, bs⟩ env₁) most ∧ _ :=
            hentered.defined hst.spares.frames_le (hknown hbs hentered) fun hnot v hv =>
              hentered.guest (hbs.guests (hcode hnot) v hv)
          change (alone c d (.eval define env₁)).andThen (fun _ => alone c d (.tail call env₁))
            u r s' ↔ _
          rw [andThen_definition hd (hspecial hentered) (hlambda hentered) hx hempty,
            hbody hdefined, invoking_thunk rfl, within_iff_of_lt hd]
          exact hnext _ env₁ _ _ _ hd (hdefined.entered (hknown hcs hdefined))
            (fun hx => Reserve.le_withClosure.closures _ (hown hx)) (ready_entered hframe)

end Machine

end HygienicScheme
