import HygienicScheme.Proofs.Derived.Conditionals
import HygienicScheme.Proofs.Stamps.Settling

/-!
# Selecting a clause

What a `cond` form becomes evaluates the tests from the left, each of them once, until the value of
one is true; its clause tells what is done with the value.
-/
namespace HygienicScheme

open Machine Run Store Sketch

namespace Machine

variable {c : Context} {d : Nat} {env : Environment} {s s' t : Store} {r : Result}
  {own more : Reserve} {v test body held : Value} {x : Symbol} {p : Lambda} {B : Sketch}

def holding (c : Context) (d : Nat) (env : Environment) (p : Lambda) (test : Value)
    (next : Value → Environment → Run) : Run :=
  within c d (.doing (liftM (Build.closure (p.closure env none))) fun _ =>
    (alone c d (.eval test env)).andThen fun v =>
      .doing (liftM (Build.child env (p.params.zip [v]))) (next v))

def select (c : Context) (d : Nat) : List (Lambda × Clause) → Environment → Run
  | [], _ => .done .unspecified
  | (p, k) :: more, env =>
    match k with
    | .otherwise body => inOrder c d env body
    | .bare test =>
      if more.isEmpty then alone c d (.tail test env)
      else holding c d env p test fun v env' => if v.isTrue then .done v else select c d more env'
    | .receive test receiver => holding c d env p test fun v env' =>
        if v.isTrue then (alone c d (.eval receiver env')).andThen fun f => alone c d (.apply f [v])
        else select c d more env'
    | .plain test body => (alone c d (.eval test env)).andThen fun v =>
        if v.isTrue then inOrder c d env body else select c d more env

theorem holding_congr {next next' : Value → Environment → Run} (hs : s.Safe own)
    (hp : ∀ v ∈ p.body, s.Known v) (htest : s.Guest own test)
    (hnext : ∀ v t more, s.Reserves own t more → t.Guest more v →
      alone c d (.eval test env) { s with closures := s.closures.push (p.closure env none) }
        (.value v) t →
      (next v ⟨t.frames.size, env.chain⟩
          { t with frames := t.frames.push ⟨p.params.zip [v], []⟩ } r s' ↔
        next' v ⟨t.frames.size, env.chain⟩
          { t with frames := t.frames.push ⟨p.params.zip [v], []⟩ } r s')) :
    holding c d env p test next s r s' ↔ holding c d env p test next' s r s' := by
  refine within_congr ?_
  rw [doing_lift, doing_lift]
  have hclosure : s.Reserves own { s with closures := s.closures.push (p.closure env none) }
      (own.withClosure s.closures.size) := hs.closure hp none
  refine andThen_congr (fun _ _ => Iff.rfl) fun v t hv => ?_
  obtain ⟨hst, hguest⟩ := hclosure.safe.evaluated (hclosure.guest htest) hv
  rw [doing_lift, doing_lift]
  exact hnext v t _ (hclosure.trans hst) hguest hv

theorem alone_tail_bound (h : s.bound? env.frame x = some v) :
    alone c d (.tail (.symbol x) env) s r s' ↔ Run.done v s r s' := by
  have hstep : step c ⟨.tail (.symbol x) env, [], d, s⟩ = step c ⟨.eval (.symbol x) env, [], d,
    s⟩ := rfl
  rw [alone_step, hstep, ← alone_step, alone_bound h]

theorem runs_holds (hs : s.Safe own) (h : s.Looks own v (.holding x B test)) :
    ∃ p body, p.params = [x] ∧ s.Looks own body B ∧
      ∀ ⦃t more⦄, s.Reserves own t more → ∀ c d env r s' (next : Value → Environment → Run),
        (∀ held u most, alone c d (.eval test env)
            { t with closures := t.closures.push (p.closure env none) } (.value held) u →
          s.Reserves own { u with frames := u.frames.push ⟨[(x, held)], []⟩ } most →
          (alone c d (.tail body ⟨u.frames.size, env.chain⟩)
              { u with frames := u.frames.push ⟨[(x, held)], []⟩ } r s' ↔
            next held ⟨u.frames.size, env.chain⟩
              { u with frames := u.frames.push ⟨[(x, held)], []⟩ } r s')) →
        (alone c d (.tail v env) t r s' ↔ holding c d env p test next t r s') := by
  obtain ⟨body, hbody, hruns⟩ := runs_holding hs h
  obtain ⟨vs, hchain, hvs⟩ := h.chain
  have htest : s.Guest own test := by
    cases hvs with
    | cons _ hvs =>
      cases hvs with
      | cons htest hvs =>
        obtain rfl := htest.eq_of_part
        exact htest.guest
  refine ⟨⟨[x], [body]⟩, body, rfl, hbody, fun t more hst c d env r s' next hnext => ?_⟩
  rw [hruns hst]
  change holding c d env ⟨[x], [body]⟩ test (fun _ env' => alone c d (.tail body env')) t r s' ↔ _
  refine holding_congr hst.safe ?_ (hst.guest htest) fun held u most hu hheld hvalue => ?_
  · rintro w hw
    obtain rfl := List.mem_singleton.mp hw
    exact (hbody.known hs.secludes).outgrows hst.outgrows
  · exact hnext held u most hvalue
      ((hst.trans hu).trans (hu.safe.child (List.forall_mem_singleton.mpr hheld)))

theorem bound?_held {u : Store} : ({ u with frames := u.frames.push ⟨[(x, held)], []⟩ } :
    Store).bound? u.frames.size x = some held := by
  rw [bound?_opened]
  simp

theorem runs_held {Y : Sketch} {Ns : List Sketch} (hs : s.Safe own) (hNs : Ns.length ≤ 1)
    (h : s.Looks own v
      (.holding x (.form "if" (.atom (.symbol x) :: Y :: Ns)) test)) :
    ∃ p yes no, p.params = [x] ∧ s.Looks own yes Y ∧ s.LookAll own no Ns ∧
      ∀ ⦃t more⦄, s.Reserves own t more → ∀ c d env r s' (next : Value → Environment → Run),
        (∀ held env' u most, s.Reserves own u most → u.bound? env'.frame x = some held →
          ((if held.isTrue then alone c d (.tail yes env') else inOrder c d env' no) u r s' ↔
            next held env' u r s')) →
        (alone c d (.tail v env) t r s' ↔ holding c d env p test next t r s') := by
  obtain ⟨p, body, hp, hbody, hruns⟩ := runs_holds hs h
  obtain ⟨asked, yes, no, hasked, hyes, hno, hbranch⟩ := runs_branch hbody hNs
  obtain rfl := hasked.eq_of_atom
  refine ⟨p, yes, no, hp, hyes, hno, fun t more hst c d env r s' next hnext => ?_⟩
  refine hruns hst c d env r s' next fun held u most _ hu => ?_
  refine (hbranch hu c d _ r s').trans ?_
  rw [andThen_congr (fun _ _ => alone_bound bound?_held) fun _ _ _ => Iff.rfl, andThen_done]
  exact hnext held _ _ _ hu bound?_held

theorem runs_applied {receiver : Value} (hx : own.Has (.symbol x))
    (h : s.Looks own v (.list [.part receiver, .atom (.symbol x)]))
    (hreceiver : ∀ y, receiver = .symbol y → specialForm? (.symbol y) = none)
    (hst : s.Reserves own t more) (hheld : t.bound? env.frame x = some held)
    (hframe : env.frame < t.frames.size) : alone c d (.tail v env) t r s' ↔
      ((alone c d (.eval receiver env)).andThen fun f => alone c d (.apply f [held])) t r s' := by
  obtain ⟨f, operands, vs, hf, hvs, happlication⟩ := h.application (by
    rintro y (hy | hy) <;> cases hy
    exact hreceiver y rfl)
  obtain rfl := hf.eq_of_part
  cases hvs with
  | cons hatom hvs =>
    cases hvs
    obtain rfl := hatom.eq_of_atom
    have hlater : ∀ g u, alone c d (.eval f env) t (.value g) u → t.Reserves more u more :=
      fun g u hg => (hst.safe.evaluated (hst.guest hf.guest) hg).1
    rw [alone_application (happlication hst).1 fun g u hg =>
      (happlication (hst.trans (hlater g u hg))).2]
    refine andThen_congr (fun _ _ => Iff.rfl) fun g u hg => ?_
    have hbound : u.bound? env.frame x = some held :=
      ((hlater g u hg).spares.bound_eq _ hframe x (hst.le.has hx)).trans hheld
    rw [valuesOf, andThen_congr (fun _ _ => alone_bound hbound) fun _ _ _ => Iff.rfl, andThen_done]
    exact Iff.rfl

end Machine

namespace Derived

variable {env : Environment} {s t u : Store} {own : Reserve} {v : Value} {no : List Value}
  {bs bs' : List (Symbol × Clause)} {bound : List Symbol} {x : Symbol} {W : Sketch}
  {Us : List Sketch} {R : Value → Value → Prop}

def holders {α : Type} : List (α × Clause) → List α
  | [] => []
  | (x, k) :: more =>
    match k with
    | .otherwise _ => []
    | .bare _ => if more.isEmpty then [] else x :: holders more
    | .receive .. => x :: holders more
    | .plain .. => holders more

def Applicable (bs : List (Symbol × Clause)) : Prop := ∀ b ∈ bs, ∀ test receiver,
  b.2 = .receive test receiver → ∀ y : Symbol, receiver = .symbol y → isCoreKeyword y.name = false

theorem plain_of_not_keyword {name : String} (h : isCoreKeyword name = false) :
    name ∉ ["quote", "quasiquote", "lambda", "define", "define-syntax"] := by
  intro hname
  have hcore : isCoreKeyword name = true := by
    simp only [List.mem_cons, List.not_mem_nil, or_false] at hname
    rcases hname with rfl | rfl | rfl | rfl | rfl <;> rfl
  exact Bool.noConfusion (h.symm.trans hcore)

theorem specialForm_of_not_keyword {y : Symbol} (h : isCoreKeyword y.name = false) :
    specialForm? (.symbol y) = none := by
  cases hform : specialForm? (.symbol y) with
  | none => rfl
  | some form =>
    exact Bool.noConfusion
      (h.symm.trans (SpecialForm.ofName?_core (SpecialForm.ofSymbol?_some hform).2))

def Compiled (R : Value → Value → Prop) (bs bs' : List (Symbol × Clause)) : Prop :=
  List.Forall₂ (fun b b' => b'.1 = b.1 ∧ b.2.Compiles R b'.2) bs bs'

section Reading

theorem binds_selects (hx : x ∈ holders bs) : (selects bs).Binds x := by
  induction bs with
  | nil => cases hx
  | cons b bs ih =>
    obtain ⟨y, k⟩ := b
    have hrest : x ∈ holders bs → ∃ T ∈ (if bs.isEmpty then [] else [selects bs]), T.Binds x := by
      intro hx
      cases bs with
      | nil => cases hx
      | cons b bs => exact ⟨_, .head _, ih hx⟩
    have hheld : ∀ {test Y}, x ∈ y :: holders bs → (Sketch.holding y (.form "if"
        (.atom (.symbol y) :: Y :: if bs.isEmpty then [] else [selects bs])) test).Binds x := by
      intro test Y hx
      refine binds_holding.mpr ((List.mem_cons.mp hx).imp_right fun hx => ?_)
      obtain ⟨T, hT, hbinds⟩ := hrest hx
      exact (binds_form (.inl rfl)).mpr ⟨T, .tail _ (.tail _ hT), hbinds⟩
    cases k with
    | otherwise body => cases hx
    | bare test =>
      cases bs with
      | nil => cases hx
      | cons b bs => exact hheld hx
    | receive test receiver => exact hheld hx
    | plain test body =>
      obtain ⟨T, hT, hbinds⟩ := hrest hx
      exact (binds_form (.inl rfl)).mpr ⟨T, .tail _ (.tail _ hT), hbinds⟩

theorem legible_selects (hstamped : ∀ b ∈ bs, b.1.isStamped) (happlied : Applicable bs) :
    (selects bs).Legible := by
  induction bs with
  | nil => exact legible_form (.inl rfl) (by simp [Sketch.Legible.atom])
  | cons b bs ih =>
    obtain ⟨x, k⟩ := b
    obtain ⟨hx, hstamped⟩ := List.forall_mem_cons.mp hstamped
    obtain ⟨hreceiver, happlied⟩ := List.forall_mem_cons.mp happlied
    have hatom : (Sketch.atom (.symbol x)).Legible := .atom nofun
    have hrest : ∀ T ∈ (if bs.isEmpty then [] else [selects bs]), T.Legible := by
      intro T hT
      cases bs with
      | nil => cases hT
      | cons b bs =>
        obtain rfl := List.mem_singleton.mp hT
        exact ih hstamped happlied
    have hbody : ∀ {body}, (Sketch.form "begin" (parts body)).Legible :=
      legible_form (.inr rfl) legible_parts
    have hheld : ∀ {test Y}, Y.Legible → (Sketch.holding x (.form "if"
        (.atom (.symbol x) :: Y :: if bs.isEmpty then [] else [selects bs])) test).Legible :=
      fun hY => legible_holding hx (legible_form (.inl rfl)
        (List.forall_mem_cons.mpr ⟨hatom, List.forall_mem_cons.mpr ⟨hY, hrest⟩⟩))
    cases k with
    | otherwise body => exact hbody
    | bare test =>
      cases bs with
      | nil => exact .part
      | cons b bs => exact hheld hatom
    | receive test receiver =>
      refine hheld (.list ?_ (List.forall_mem_cons.mpr ⟨.part,
        List.forall_mem_singleton.mpr hatom⟩))
      rintro y (hy | hy)
      · cases hy
      · cases hy
        exact .inr (plain_of_not_keyword (hreceiver test _ rfl y rfl))
    | plain test body =>
      exact legible_form (.inl rfl)
        (List.forall_mem_cons.mpr ⟨.part, List.forall_mem_cons.mpr ⟨hbody, hrest⟩⟩)

theorem settled_selects (hstamped : ∀ b ∈ bs, b.1.isStamped) (helse : ElseLast bs)
    (hbound : ∀ x ∈ holders bs, x ∈ bound) (h : Settled bound s u (selects bs) W) :
    ∃ bs', W = selects bs' ∧ Compiled (Treated (Renaming.code bound) s u) bs bs' := by
  induction bs generalizing W with
  | nil =>
    obtain rfl := settled_of_unspecified h
    exact ⟨[], rfl, .nil⟩
  | cons b bs ih =>
    obtain ⟨x, k⟩ := b
    obtain ⟨hx, hstamped⟩ := List.forall_mem_cons.mp hstamped
    -- The alternative is left out where no clause follows, before the pass and after it.
    have hrest : ElseLast bs → (∀ x ∈ holders bs, x ∈ bound) → ∀ {Us},
        List.Forall₂ (Settled bound s u) (if bs.isEmpty then [] else [selects bs]) Us →
          ∃ bs', Us = (if bs'.isEmpty then [] else [selects bs']) ∧
            Compiled (Treated (Renaming.code bound) s u) bs bs' := by
      intro helse hbound Us hUs
      cases bs with
      | nil =>
        cases hUs
        exact ⟨[], rfl, .nil⟩
      | cons b bs =>
        cases hUs with
        | cons hU hUs =>
          cases hUs
          obtain ⟨bs', rfl, hbs'⟩ := ih hstamped helse hbound hU
          refine ⟨bs', ?_, hbs'⟩
          cases hbs'
          rfl
    cases k with
    | otherwise body =>
      obtain rfl : bs = [] := helse
      obtain ⟨body', rfl, hbody⟩ := settled_of_sequence h
      exact ⟨[(x, .otherwise body')], rfl, .cons ⟨rfl, .otherwise hbody⟩ .nil⟩
    | bare test =>
      cases bs with
      | nil =>
        obtain ⟨test', rfl, htest⟩ := settled_of_part h
        exact ⟨[(x, .bare test')], rfl, .cons ⟨rfl, .bare htest⟩ .nil⟩
      | cons b bs =>
        have hxb := hbound x (.head _)
        -- The holder is bound around its use, so it keeps its stamp.
        obtain ⟨test', C, rfl, htest, hC⟩ := settled_of_holding hx hxb h
        obtain ⟨_, _, Us, rfl, hfirst, hsecond, hUs⟩ := settled_of_branch hC
        obtain rfl := settled_of_atom hfirst
        obtain rfl := settled_of_atom hsecond
        obtain ⟨bs', rfl, hbs'⟩ := hrest helse (fun y hy => hbound y (.tail _ hy)) hUs
        rw [settledAtom_bound hxb]
        refine ⟨(x, .bare test') :: bs', ?_, .cons ⟨rfl, .bare htest⟩ hbs'⟩
        cases hbs'
        rfl
    | receive test receiver =>
      have hxb := hbound x (.head _)
      obtain ⟨test', C, rfl, htest, hC⟩ := settled_of_holding hx hxb h
      obtain ⟨_, _, Us, rfl, hfirst, happlied, hUs⟩ := settled_of_branch hC
      obtain rfl := settled_of_atom hfirst
      obtain ⟨V, Vs, rfl, hV, hVs⟩ := settled_of_list (T := .part receiver) nofun happlied
      obtain ⟨receiver', rfl, hreceiver⟩ := settled_of_part hV
      cases hVs with
      | cons hatom hVs =>
        cases hVs
        obtain rfl := settled_of_atom hatom
        obtain ⟨bs', rfl, hbs'⟩ := hrest helse (fun y hy => hbound y (.tail _ hy)) hUs
        rw [settledAtom_bound hxb]
        exact ⟨(x, .receive test' receiver') :: bs', rfl,
          .cons ⟨rfl, .receive htest hreceiver⟩ hbs'⟩
    | plain test body =>
      obtain ⟨_, _, Us, rfl, hpart, hsequence, hUs⟩ := settled_of_branch h
      obtain ⟨test', rfl, htest⟩ := settled_of_part hpart
      obtain ⟨body', rfl, hbody⟩ := settled_of_sequence hsequence
      obtain ⟨bs', rfl, hbs'⟩ := hrest helse hbound hUs
      exact ⟨(x, .plain test' body') :: bs', rfl, .cons ⟨rfl, .plain htest hbody⟩ hbs'⟩

end Reading

def Runs (s : Store) (own : Reserve) (bs : List (Symbol × Clause)) (v : Value) : Prop :=
  ∃ ps : List (Lambda × Clause), List.Forall₂ (fun b p => p.1.params = [b.1] ∧ p.2 = b.2) bs ps ∧
    ∀ ⦃t more⦄, s.Reserves own t more → ∀ c d env r s',
      alone c d (.tail v env) t r s' ↔ select c d ps env t r s'

theorem runs_rest (h : ∀ ⦃v⦄, s.Looks own v (selects bs) → Runs s own bs v)
    (hno : s.LookAll own no (if bs.isEmpty then [] else [selects bs])) :
    ∃ ps : List (Lambda × Clause), List.Forall₂ (fun b p => p.1.params = [b.1] ∧ p.2 = b.2) bs ps ∧
      ∀ ⦃t more⦄, s.Reserves own t more → ∀ c d env r s',
        inOrder c d env no t r s' ↔ select c d ps env t r s' := by
  cases bs with
  | nil =>
    cases hno
    exact ⟨[], .nil, fun _ _ _ _ _ _ _ _ => Iff.rfl⟩
  | cons b bs =>
    cases hno with
    | cons hv hno =>
      cases hno
      exact h hv

theorem runs_selects (hs : s.Safe own) (helse : ElseLast bs)
    (hheld : ∀ x ∈ holders bs, own.Has (.symbol x))
    (happlied : Applicable bs) (h : s.Looks own v (selects bs)) : Runs s own bs v := by
  induction bs generalizing v with
  | nil =>
    exact ⟨[], .nil, runs_unspecified h⟩
  | cons b bs ih =>
    obtain ⟨x, k⟩ := b
    -- There is at most one alternative, as `if` wants it.
    have hlength : (if bs.isEmpty then [] else [selects bs]).length ≤ 1 := by split <;> simp
    have happlied' : Applicable bs := (List.forall_mem_cons.mp happlied).2
    cases k with
    | otherwise body =>
      obtain rfl : bs = [] := helse
      obtain ⟨vs, hvs, hruns⟩ := runs_sequence h
      obtain ⟨rfl, -⟩ := lookAll_parts.mp hvs
      exact ⟨[(⟨[x], []⟩, .otherwise vs)], .cons ⟨rfl, rfl⟩ .nil, hruns⟩
    | bare test =>
      cases bs with
      | nil =>
        obtain rfl := Looks.eq_of_part h
        exact ⟨[(⟨[x], []⟩, .bare v)], .cons ⟨rfl, rfl⟩ .nil, fun _ _ _ _ _ _ _ _ => Iff.rfl⟩
      | cons b bs =>
        obtain ⟨p, yes, no, hp, hyes, hno, hruns⟩ := runs_held hs hlength h
        obtain rfl := hyes.eq_of_atom
        obtain ⟨ps, hps, hrest⟩ :=
          runs_rest (fun v => ih helse (fun y hy => hheld y (.tail _ hy)) happlied') hno
        refine ⟨(p, .bare test) :: ps, .cons ⟨hp, rfl⟩ hps, fun t more hst c d env r s' => ?_⟩
        have hempty : ps.isEmpty = false := by
          cases hps
          rfl
        -- The value of the test is held in a frame of its own while the branch is chosen.
        rw [select, hempty, if_neg Bool.false_ne_true]
        refine hruns hst c d env r s' _ fun held env' u most hu hbound => ?_
        split
        · exact alone_tail_bound hbound
        · exact hrest hu c d env' r s'
    | receive test receiver =>
      obtain ⟨p, yes, no, hp, hyes, hno, hruns⟩ := runs_held hs hlength h
      obtain ⟨ps, hps, hrest⟩ :=
        runs_rest (fun v => ih helse (fun y hy => hheld y (.tail _ hy)) happlied') hno
      refine ⟨(p, .receive test receiver) :: ps, .cons ⟨hp, rfl⟩ hps,
        fun t more hst c d env r s' => ?_⟩
      rw [select]
      refine hruns hst c d env r s' _ fun held env' u most hu hbound => ?_
      split
      · exact runs_applied (hheld x (.head _)) hyes
          (fun y hy => specialForm_of_not_keyword (happlied _ (.head _) test receiver rfl y hy)) hu
          hbound (lt_of_bound hbound)
      · exact hrest hu c d env' r s'
    | plain test body =>
      obtain ⟨w, yes, no, htest, hyes, hno, hbranch⟩ := runs_branch h hlength
      obtain rfl := htest.eq_of_part
      obtain ⟨vs, hvs, hbody⟩ := runs_sequence hyes
      obtain ⟨rfl, -⟩ := lookAll_parts.mp hvs
      obtain ⟨ps, hps, hrest⟩ := runs_rest (fun v => ih helse hheld happlied') hno
      refine ⟨(⟨[x], []⟩, .plain w vs) :: ps, .cons ⟨rfl, rfl⟩ hps,
        fun t more hst c d env r s' => ?_⟩
      rw [hbranch hst, select]
      refine andThen_congr (fun _ _ => Iff.rfl) fun held u hheld => ?_
      -- Evaluating the user's test leaves the reserve as it was.
      have hu := hst.trans (hst.safe.evaluated (hst.guest htest.guest) hheld).1
      split
      · exact hbody hu c d env r s'
      · exact hrest hu c d env r s'

end Derived

end HygienicScheme
