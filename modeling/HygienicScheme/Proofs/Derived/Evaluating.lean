import HygienicScheme.Proofs.Derived.Settling
import HygienicScheme.Proofs.Evaluation.Forms

/-!
# Evaluating what was drawn

The lists that an expansion made are in the reserve, so they read as they were drawn whenever the
evaluator comes to them, whatever was evaluated before. Code of the user's has no hold of the
reserve, and neither have its values.
-/
namespace HygienicScheme

open Machine

namespace Sketch

inductive Formals : Sketch → List Symbol → Prop
  | null : Formals (.atom .null) []
  | list {Ts : List Sketch} {xs : List Symbol} (h : List.Forall₂ Sketch.Is Ts xs) :
      Formals (.list Ts) xs

end Sketch

namespace Store

variable {s t u : Store} {own more : Reserve} {v w : Value} {T F : Sketch} {Ts Bs : List Sketch}
  {xs : List Symbol} {env : Environment} {c : Context} {d : Nat}

theorem Reserves.safe (h : s.Reserves own t more) : t.Safe more := ⟨h.secludes, h.known⟩

theorem Safe.child (hs : s.Safe own) {bindings : List (Symbol × Value)}
    (hbindings : ∀ b ∈ bindings, s.Guest own b.2) :
    s.Reserves own { s with frames := s.frames.push ⟨bindings, []⟩ } own :=
  .of_kept ((secluding own).child default hs.secludes trivial fun b hb => (hbindings b hb).apart).1
    (knowing.child default hs.known trivial fun b hb => (hbindings b hb).known).1

theorem Safe.closure (hs : s.Safe own) {p : Lambda} (hp : ∀ v ∈ p.body, s.Known v)
    (name : Option String) : s.Reserves own
      { s with closures := s.closures.push (p.closure env name) }
      (own.withClosure s.closures.size) := hs.secludes.withClosure hs.known hp

theorem LookAll.known {vs : List Value} (h : s.LookAll own vs Ts) (hs : s.Safe own) :
    ∀ v ∈ vs, s.Known v := by
  intro v hv
  obtain ⟨T, -, hlooks⟩ := SyntaxRules.exists_of_mem_right h.flip hv
  exact hlooks.known hs.secludes

theorem LookAll.guests {vs : List Value} (h : s.LookAll own vs Ts)
    (hparts : ∀ T ∈ Ts, ∃ w, T = .part w) : ∀ v ∈ vs, s.Guest own v := by
  intro v hv
  obtain ⟨T, hT, hlooks⟩ := SyntaxRules.exists_of_mem_right h.flip hv
  obtain ⟨w, rfl⟩ := hparts T hT
  obtain rfl := hlooks.eq_of_part
  exact hlooks.guest

theorem Safe.evaluated (hs : s.Safe own) (hv : s.Guest own v)
    (h : alone c d (.eval v env) s (.value w) t) : s.Reserves own t own ∧ t.Guest own w := by
  have hsecluded := keptByAll_evaluations (secluding own) c env d v s hs.secludes hv.apart w t h
  have hknown := keptByAll_evaluations knowing c env d v s hs.known hv.known w t h
  exact ⟨.of_kept hsecluded.1 hknown.1, hknown.2, hsecluded.2⟩

theorem LooksAll.items (h : s.LooksAll own v Ts) : ∃ vs, s.LookAll own vs Ts ∧
    ∀ ⦃t more⦄, s.Reserves own t more → t.properList? v = some vs := by
  induction Ts generalizing v with
  | nil =>
    cases h
    exact ⟨[], .nil, fun _ _ _ => rfl⟩
  | cons T Ts ih =>
    cases h with
    | @cons a _ _ ha hcar hcdr =>
      obtain ⟨vs, hvs, hitems⟩ := ih hcdr
      refine ⟨(s.pairAt a).car :: vs, .cons hcar hvs, fun t more hst => ?_⟩
      have hchain := Store.properList?_eq_some.mp (hitems hst)
      rw [← hst.spares.pairAt_eq a ha] at hchain ⊢
      exact Store.properList?_eq_some.mpr (.pair hchain)

theorem Looks.special {name : String} {keyword : SpecialForm}
    (h : s.Looks own v (.list (.atom (.name name) :: Ts)))
    (hname : SpecialForm.ofName? name = some keyword) : ∃ vs, s.LookAll own vs Ts ∧
      ∀ ⦃t more⦄, s.Reserves own t more → t.IsSpecial v keyword vs := by
  cases h with
  | list h =>
    cases h with
    | @cons a _ _ ha hcar hcdr =>
      obtain ⟨vs, hvs, hitems⟩ := hcdr.items
      refine ⟨vs, hvs, fun t more hst => ⟨a, rfl, ?_, ?_⟩⟩
      · rw [hst.spares.pairAt_eq a ha, hcar.eq_of_atom]
        exact hname
      · rw [hst.spares.pairAt_eq a ha]
        exact hitems hst

theorem Looks.application (h : s.Looks own v (.list (T :: Ts)))
    (hhead : ∀ x, T.Is x → specialForm? (.symbol x) = none) :
    ∃ f operands vs, s.Looks own f T ∧ s.LookAll own vs Ts ∧ ∀ ⦃t more⦄, s.Reserves own t more →
      t.IsApplication v f operands ∧ t.properList? operands = some vs := by
  cases h with
  | list h =>
    cases h with
    | @cons a _ _ ha hcar hcdr =>
      obtain ⟨vs, hvs, hitems⟩ := hcdr.items
      refine ⟨_, _, vs, hcar, hvs, fun t more hst => ⟨⟨a, rfl, ?_, ?_, ?_⟩, hitems hst⟩⟩
      all_goals rw [hst.spares.pairAt_eq a ha]
      cases hf : (s.pairAt a).car with
      | symbol x =>
        rw [hf] at hcar
        exact hhead x (Derived.is_of_looks hcar)
      | _ => rfl

theorem Looks.symbols {fs : List Value} (h : List.Forall₂ Sketch.Is Ts xs)
    (hfs : s.LookAll own fs Ts) : fs = xs.map .symbol := by
  induction h generalizing fs with
  | nil =>
    cases hfs
    rfl
  | cons hx _ ih =>
    cases hfs with
    | cons hf hfs =>
      rw [List.map_cons, ← ih hfs]
      rcases hx with rfl | rfl
      · rw [hf.eq_of_atom]
      · rw [hf.eq_of_part]

theorem Looks.formals (h : s.Looks own v F) (hF : F.Formals xs) : ∀ ⦃t more⦄,
    s.Reserves own t more →
    t.properList? v = some (xs.map .symbol) := by
  intro t more hst
  cases hF with
  | null =>
    obtain rfl := h.eq_of_atom
    rfl
  | list hxs =>
    cases h with
    | list h =>
      obtain ⟨fs, hfs, hitems⟩ := h.items
      rw [hitems hst, Looks.symbols hxs hfs]

theorem Looks.lambda (h : s.Looks own v (.list (.atom (.name "lambda") :: F :: Bs)))
    (hF : F.Formals xs) (hdistinct : xs.Nodup) (hBs : Bs ≠ []) :
    ∃ formals bs, s.LookAll own bs Bs ∧ ∀ ⦃t more⦄, s.Reserves own t more →
      t.IsLambda v formals ⟨xs, bs⟩ := by
  obtain ⟨vs, hvs, hspecial⟩ := h.special (show _ = some SpecialForm.lambda from rfl)
  cases hvs with
  | @cons formals _ bs _ hformals hbs =>
    refine ⟨formals, bs, hbs, fun t more hst =>
      ⟨hspecial hst, hformals.formals hF hst, hdistinct, ?_⟩⟩
    rintro rfl
    cases hbs
    exact hBs rfl

end Store

namespace Machine

open Run Store

variable {c : Context} {d : Nat} {env : Environment} {s s' t : Store} {r : Result}
  {own more : Reserve} {v w form : Value} {forms vs : List Value} {x : Symbol} {p : Lambda}
  {T F : Sketch} {Ts Bs : List Sketch}

theorem alone_found (h : s.lookup? env x = some v) :
    alone c d (.eval (.symbol x) env) s r s' ↔ Run.done v s r s' := by
  have hok : Action.lookup env x s = .ok v s := by
    rw [Action.lookup, Action.inspect_bind, h]
    rfl
  rw [alone_symbol, doing, hok]
  simp only [EStateM.Result.ok.injEq, reduceCtorEq, false_and, exists_false, or_false]
  constructor
  · rintro ⟨_, _, ⟨rfl, rfl⟩, h⟩
    exact h
  · exact fun h => ⟨v, s, ⟨rfl, rfl⟩, h⟩

theorem alone_bound (h : s.bound? env.frame x = some v) :
    alone c d (.eval (.symbol x) env) s r s' ↔ Run.done v s r s' := by
  refine alone_found ?_
  rw [Store.bound?] at h
  rw [Store.lookup?, Environment.chain, lookupExact?, h]

theorem bound?_opened {bindings : List (Symbol × Value)} :
    ({ s with frames := s.frames.push ⟨bindings, []⟩ } : Store).bound? s.frames.size x =
      bindings.lookup x := by
  have hframe : ({ s with frames := s.frames.push ⟨bindings, []⟩ } : Store).frameAt s.frames.size =
      ⟨bindings, []⟩ := by simp [frameAt]
  rw [bound?, hframe]

theorem valuesOf_congr {next next' : List Value → Run} (hs : s.Safe own)
    (hforms : ∀ v ∈ forms, s.Guest own v)
    (hnext : ∀ vs t, s.Reserves own t own → vs.length = forms.length →
      (∀ v ∈ vs, t.Guest own v) → (next vs t r s' ↔ next' vs t r s')) :
    valuesOf c d env forms next s r s' ↔ valuesOf c d env forms next' s r s' := by
  induction forms generalizing s next next' with
  | nil => exact hnext [] s (.refl hs.secludes hs.known) rfl nofun
  | cons form more ih =>
    obtain ⟨hform, hmore⟩ := List.forall_mem_cons.mp hforms
    refine andThen_congr (fun _ _ => Iff.rfl) fun v t hv => ?_
    obtain ⟨hst, hguest⟩ := hs.evaluated hform hv
    refine ih hst.safe (fun w hw => hst.guest (hmore w hw)) fun vs u htu hlength hvs => ?_
    exact hnext (v :: vs) u (hst.trans htu) (congrArg Nat.succ hlength)
      (List.forall_mem_cons.mpr ⟨htu.guest hguest, hvs⟩)

def invoking (c : Context) (d : Nat) (env : Environment) (p : Lambda) (operands : List Value)
    (next : List Value → Environment → Run) : Run :=
  within c d (.doing (liftM (Build.closure (p.closure env none))) fun _ =>
    valuesOf c d env operands fun vs =>
      .doing (liftM (Build.child env (p.params.zip vs))) (next vs))

theorem calls (hs : s.Safe own) {xs : List Symbol}
    (h : s.Looks own form (.list (.list (.atom (.name "lambda") :: F :: Bs) :: forms.map .part)))
    (hF : F.Formals xs) (hdistinct : xs.Nodup) (hlength : forms.length = xs.length)
    (hBs : Bs ≠ []) : ∃ bs, s.LookAll own bs Bs ∧ ∀ ⦃t more⦄, s.Reserves own t more →
      ∀ c d env r s', alone c d (.tail form env) t r s' ↔
        invoking c d env ⟨xs, bs⟩ forms (fun _ env' => inOrder c d env' bs) t r s' := by
  obtain ⟨f, operands, vs, hf, hvs, happlication⟩ := h.application (by rintro x (h | h) <;> cases h)
  obtain ⟨rfl, hguests⟩ := Derived.lookAll_parts.mp hvs
  obtain ⟨formals, bs, hbs, hlambda⟩ := hf.lambda hF hdistinct hBs
  refine ⟨bs, hbs, fun t more hst c d env r s' => ?_⟩
  have hknown : ∀ v ∈ bs, t.Known v := fun v hv => (hbs.known hs v hv).outgrows hst.outgrows
  -- Evaluating the operator makes one closure and nothing else.
  have hclosure : t.Reserves more
      { t with closures := t.closures.push (Lambda.closure ⟨xs, bs⟩ env none) }
      (more.withClosure t.closures.size) := hst.safe.closure hknown none
  have hoperator : ∀ r s', alone c d (.eval f env) t r s' ↔
      within c d (.doing (liftM (Build.closure (Lambda.closure ⟨xs, bs⟩ env none))) .done)
        t r s' := by
    obtain ⟨a, rfl, -⟩ := (hlambda hst).special
    exact fun r s' => alone_nested.trans (within_congr (alone_lambda (hlambda hst)))
  have hoperands : ∀ g u, alone c d (.eval f env) t (.value g) u →
    u.properList? operands = some vs := by
    intro g u hg
    have hmade := (hoperator _ _).mp hg
    unfold within at hmade
    split at hmade
    · cases hmade.1
    · obtain ⟨-, rfl⟩ := doing_lift.mp hmade
      exact (happlication (hst.trans hclosure)).2
  rw [alone_application (happlication hst).1 hoperands,
    andThen_congr hoperator fun _ _ _ => Iff.rfl, within_andThen]
  refine within_congr ?_
  rw [andThen_lift, doing_lift, doing_lift, andThen_done]
  refine valuesOf_congr hclosure.safe
    (fun v hv => hclosure.guest (hst.guest (hguests v hv))) fun args u hu hargs _ => ?_
  have hcode : u.closureAt t.closures.size = Lambda.closure ⟨xs, bs⟩ env none := by
    rw [hu.spares.closureAt_eq _ (.inl rfl)]
    exact closureAt_push.trans (if_pos rfl)
  have hbind : Procedure.bind (Lambda.closure ⟨xs, bs⟩ env none) args u =
      (liftM (Build.child env (xs.zip args)) : Action Environment) u :=
    Procedure.bind_lambda hdistinct (hargs.trans hlength)
  change alone c d (.apply (.closure t.closures.size) args) u r s' ↔ _
  rw [alone_closure, hcode, doing, doing, hbind]
  exact Iff.rfl

end Machine

end HygienicScheme
