import HygienicScheme.Proofs.Depth.TailCalls
import HygienicScheme.Proofs.Evaluation.Endings
import HygienicScheme.Proofs.Quasiquote.Outlines
import HygienicScheme.Proofs.Store.Hidden

/-!
# Running templates

What comes of a template is told by its outline and by what comes of its code: from the left, each
operand is evaluated once and nothing else is. The evaluator reads the template as it goes, so the
outline has to tell how it reads whenever the evaluator gets to it. It reads the list of a vector's
items as well, which it makes for itself; that list is hidden, and no operand can reach it.
-/
namespace HygienicScheme

open Reference (innerLevel)

namespace Run

variable {α : Type} {s s' : Store} {v w : Value} {first : Run} {next : Value → Run}

theorem done_value : done v s (.value w) s' ↔ w = v ∧ s' = s := by
  rw [done, Result.value.injEq]

theorem andThen_value : first.andThen next s (.value w) s' ↔
    ∃ v t, first s (.value v) t ∧ next v t (.value w) s' := by
  simp [andThen]

theorem doing_value {a : Action α} {next : α → Run} : doing a next s (.value w) s' ↔
    ∃ x t, a s = .ok x t ∧ next x t (.value w) s' := by
  simp [doing]

theorem doing_lift {b : Build α} {next : α → Run} {r : Result} :
    doing (liftM b) next s r s' ↔ next (b s).1 (b s).2 r s' := by
  have hb : (liftM b : Action α) s = .ok (b s).1 (b s).2 := rfl
  simp [doing, hb]

theorem doing_throw {e : Error} {next : α → Run} {r : Result} :
    doing (throw e) next s r s' ↔ r = .error e ∧ s' = s := by
  have he : (throw e : Action α) s = .error e s := rfl
  simp [doing, he, and_comm, eq_comm]

end Run

namespace Discipline

variable {D : Discipline} {s : Store} {v : Value}

variable (D) in
def KeptBy (R : Run) (s : Store) : Prop :=
  ∀ v t, R s (.value v) t → (D.Holds t ∧ D.Leads s t) ∧ D.Data t v

variable (D) in
def KeptByAll (E : Value → Run) : Prop :=
  ∀ o s, D.Holds s → D.Data s o → D.KeptBy (E o) s

theorem KeptBy.done (hs : D.Holds s) (hv : D.Data s v) : D.KeptBy (.done v) s := by
  intro w t h
  obtain ⟨rfl, rfl⟩ := Run.done_value.mp h
  exact ⟨⟨hs, D.refl _⟩, hv⟩

theorem KeptBy.andThen {first : Run} {next : Value → Run} (hfirst : D.KeptBy first s)
    (hnext : ∀ v t, D.Holds t → D.Leads s t → D.Data t v → D.KeptBy (next v) t) :
    D.KeptBy (first.andThen next) s := by
  intro w u h
  obtain ⟨v, t, hv, h⟩ := Run.andThen_value.mp h
  obtain ⟨⟨ht, hst⟩, hv⟩ := hfirst v t hv
  obtain ⟨⟨hu, htu⟩, hw⟩ := hnext v t ht hst hv w u h
  exact ⟨⟨hu, D.trans hst htu⟩, hw⟩

theorem KeptBy.doing {α : Type} {a : Action α} {next : α → Run} {Q : Store → α → Prop}
    (ha : D.Keeps a s Q)
    (hnext : ∀ x t, D.Holds t → D.Leads s t → Q t x → D.KeptBy (next x) t) :
    D.KeptBy (.doing a next) s := by
  intro w u h
  obtain ⟨x, t, hx, h⟩ := Run.doing_value.mp h
  obtain ⟨⟨ht, hst⟩, hQ⟩ := ha.of_ok hx
  obtain ⟨⟨hu, htu⟩, hw⟩ := hnext x t ht hst hQ w u h
  exact ⟨⟨hu, D.trans hst htu⟩, hw⟩

theorem KeptBy.give {a : Action Value} (ha : D.Keeps a s D.Data) : D.KeptBy (.doing a .done) s :=
  .doing ha fun _ _ ht _ hv => .done ht hv

end Discipline

namespace Reference

theorem spliced_ok {s t : Store} {v : Value} {items : List Value} :
    spliced v s = .ok items t ↔ s.properList? v = some items ∧ t = s := by
  cases h : s.properList? v with
  | some items' => simp [spliced, properItems_some h, eq_comm]
  | none => simp [spliced, properItems_none h]

end Reference

theorem Run.spliced_value {s s' : Store} {v w : Value} {next : List Value → Run} :
    doing (Reference.spliced v) next s (.value w) s' ↔
      ∃ items, s.properList? v = some items ∧ next items s (.value w) s' := by
  simp [doing_value, Reference.spliced_ok]

theorem Run.vectorOfList_value {s s' : Store} {v w : Value} {items : List Value}
    (h : s.properList? v = some items) : doing (Reference.vectorOfList v) done s (.value w) s' ↔
      w = .vector s.vectors.size ∧ s' = { s with vectors := s.vectors.push items.toArray } := by
  have hvector : Reference.vectorOfList v s = .ok (.vector s.vectors.size)
      { s with vectors := s.vectors.push items.toArray } := by
    simp only [Reference.vectorOfList, Action.properList?, Action.inspect_bind, h]
    rfl
  simp only [doing, hvector, EStateM.Result.ok.injEq, reduceCtorEq, false_and, exists_false,
    or_false]
  constructor
  · rintro ⟨_, _, ⟨rfl, rfl⟩, h⟩
    exact Run.done_value.mp h
  · rintro ⟨rfl, rfl⟩
    exact ⟨_, _, ⟨rfl, rfl⟩, Run.done_value.mpr ⟨rfl, rfl⟩⟩

namespace Outline

section Run

variable (E : Value → Run)

def run : Outline → Run
  | .atom v => .done v
  | .code keyword operand =>
    if keyword = .unquoteSplicing then
      .doing (Action.malformed "unquote-splicing" .outsideList : Action Value) .done
    else E operand
  | .form keyword inner =>
    inner.run.andThen fun v => .doing (liftM (Build.list [.name keyword.name, v])) .done
  | .pair car cdr =>
    match car.splice? with
    | some operand =>
      (E operand).andThen fun v => .doing (Reference.spliced v) fun items =>
        cdr.run.andThen fun rest => .doing (liftM (Build.listWithTail items rest)) .done
    | none =>
      car.run.andThen fun x => cdr.run.andThen fun y => .doing (liftM (Build.cons x y)) .done
  | .vector items list =>
    .doing (liftM (Build.list items)) fun _ =>
      list.run.andThen fun v => .doing (Reference.vectorOfList v) .done

end Run

def Throughout (R : Value → Prop) : Outline → Prop
  | .atom v => R v
  | .code _ operand => R operand
  | .form _ inner => inner.Throughout R
  | .pair car cdr => car.Throughout R ∧ cdr.Throughout R
  | .vector items list => (∀ v ∈ items, R v) ∧ list.Throughout R

variable {R R' : Value → Prop} {T car cdr : Outline} {items : List Outline} {operand : Value}
  {E : Value → Run}

theorem run_splice : (pair (.code .unquoteSplicing operand) cdr).run E =
    (E operand).andThen fun v => .doing (Reference.spliced v) fun items =>
      (cdr.run E).andThen fun rest => .doing (liftM (Build.listWithTail items rest)) .done := rfl

theorem run_pair (h : car.splice? = none) : (pair car cdr).run E =
    (car.run E).andThen fun x => (cdr.run E).andThen fun y =>
      .doing (liftM (Build.cons x y)) .done := by
  rw [run, h]

theorem Throughout.mono (h : T.Throughout R) (hR : ∀ v, R v → R' v) : T.Throughout R' := by
  induction T with
  | atom | code => exact hR _ h
  | form _ _ ih => exact ih h
  | pair _ _ ihcar ihcdr => exact ⟨ihcar h.1, ihcdr h.2⟩
  | vector _ _ ih => exact ⟨fun v hv => hR v (h.1 v hv), ih h.2⟩

theorem Throughout.and (h : T.Throughout R) (k : T.Throughout R') :
    T.Throughout fun v => R v ∧ R' v := by
  induction T with
  | atom | code => exact ⟨h, k⟩
  | form _ _ ih => exact ih h k
  | pair _ _ ihcar ihcdr => exact ⟨ihcar h.1 k.1, ihcdr h.2 k.2⟩
  | vector _ _ ih => exact ⟨fun v hv => ⟨h.1 v hv, k.1 v hv⟩, ih h.2 k.2⟩

theorem throughout_ofList (hnull : R .null) (h : ∀ T ∈ items, T.Throughout R) :
    (ofList items).Throughout R := by
  induction items with
  | nil => exact hnull
  | cons T more ih =>
    obtain ⟨hfirst, hmore⟩ := List.forall_mem_cons.mp h
    exact ⟨hfirst, ih hmore⟩

theorem splice?_eq_some : T.splice? = some operand ↔ T = .code .unquoteSplicing operand := by
  cases T with
  | code keyword operand' => cases keyword <;> simp [splice?]
  | _ => simp [splice?]

end Outline

section Keeping

variable {D : Discipline} {E : Value → Run} {s t : Store} {v w : Value} {T : Outline}
  {P : Store → Prop} {level : Nat}

/-- What a discipline says of a template it says of all that the outline tells of it. -/
theorem Outlined.throughout (h : Outlined P level v T) (hP : P s) (hs : D.Holds s)
    (hv : D.Data s v) : T.Throughout (D.Data s) := by
  have hoperand {v operand : Value} {keyword : QuasiKeyword} (hv : D.Data s v)
      (hform : s.quasiForm? v = some (keyword, operand)) : D.Data s operand := by
    obtain ⟨_, _, rfl, -, hchain⟩ := Store.quasiForm?_chain hform
    exact (D.chain hs hv hchain).1 _ (by simp)
  induction h with
  | atom => exact hv
  | code _ _ hform => exact hoperand hv (hform s hP)
  | form _ hform _ ih => exact ih (hoperand hv (hform s hP))
  | pair _ hpair _ _ ihcar ihcdr =>
    obtain rfl := hpair s hP
    exact ⟨ihcar (D.car hs hv), ihcdr (D.cdr hs hv)⟩
  | vector hvector _ hlength _ ih =>
    obtain rfl := hvector s hP
    refine ⟨D.item hs hv, Outline.throughout_ofList D.null fun T hT => ?_⟩
    rw [← List.map_snd_zip (Nat.le_of_eq hlength.symm)] at hT
    obtain ⟨⟨w, _⟩, hw, rfl⟩ := List.mem_map.mp hT
    exact ih w _ hw (D.item hs hv w (List.of_mem_zip hw).1)

theorem keeps_spliced (hs : D.Holds s) (hv : D.Data s v) :
    D.Keeps (Reference.spliced v) s fun t items => ∀ w ∈ items, D.Data t w := by
  cases h : s.properList? v with
  | none => exact .of_eq (Reference.properItems_none h) (.throw hs)
  | some items =>
    exact .of_eq (Reference.properItems_some h) (.pure hs (Discipline.properList hs hv h))

theorem keeps_vectorOfList (hs : D.Holds s) (hv : D.Data s v) :
    D.Keeps (Reference.vectorOfList v) s D.Data := by
  refine .inspect_bind (Discipline.keeps_vector hs ?_)
  cases h : s.properList? v with
  | none => simp
  | some items => simpa using Discipline.properList hs hv h

theorem Outline.run_keeps (hE : D.KeptByAll E) (hs : D.Holds s) (hT : T.Throughout (D.Data s)) :
    D.KeptBy (T.run E) s := by
  have hlater {T : Outline} {s t : Store} (hst : D.Leads s t) (hT : T.Throughout (D.Data s)) :
      T.Throughout (D.Data t) := hT.mono fun _ hv => D.data_leads hst hv
  induction T generalizing s with
  | atom v => exact .done hs hT
  | code keyword operand =>
    rw [run]
    split
    · exact .doing (.throw hs) fun _ _ ht _ hv => .done ht hv
    · exact hE _ _ hs hT
  | form keyword inner ih =>
    exact .andThen (ih hs hT) fun v t ht _ hv =>
      .give (Discipline.keeps_list ht (by simp [hv, D.name]))
  | pair car cdr ihcar ihcdr =>
    cases hsplice : car.splice? with
    | some operand =>
      obtain rfl := splice?_eq_some.mp hsplice
      rw [run_splice]
      refine .andThen (hE _ _ hs hT.1) fun v t ht hst hv => ?_
      refine .doing (keeps_spliced ht hv) fun items u hu htu hitems => ?_
      refine .andThen (ihcdr hu (hlater (D.trans hst htu) hT.2)) fun rest r hr hur hrest => ?_
      exact .give (Discipline.keeps_listWithTail hr (D.all_leads hur hitems) hrest)
    | none =>
      rw [run_pair hsplice]
      refine .andThen (ihcar hs hT.1) fun x t ht hst hx => ?_
      refine .andThen (ihcdr ht (hlater hst hT.2)) fun y u hu htu hy => ?_
      exact .give (Discipline.keeps_cons hu (D.data_leads htu hx) hy)
  | vector items list ih =>
    refine .doing (Discipline.keeps_list hs hT.1) fun _ t ht hst _ => ?_
    refine .andThen (ih ht (hlater hst hT.2)) fun v u hu _ hv => ?_
    exact .give (keeps_vectorOfList hu hv)

end Keeping

namespace Machine

section Steps

variable {c : Context} {v operand : Value} {env : Environment} {level d : Nat} {k : Stack}
  {s : Store} {keyword : QuasiKeyword} {a : Address}

theorem step_atom (hp : ∀ a, v ≠ .pair a) (hv : ∀ a, v ≠ .vector a) :
    step c ⟨.template v env level, k, d, s⟩ = ⟨.value v, k, d, s⟩ := by
  cases v with
  | pair a => exact absurd rfl (hp a)
  | vector a => exact absurd rfl (hv a)
  | _ => rfl

theorem step_form (hform : s.quasiForm? v = some (keyword, operand)) :
    step c ⟨.template v env level, k, d, s⟩ =
      perform (templateForm keyword operand env level k) k d s := by
  obtain ⟨a, rfl⟩ := Store.quasiForm?_pair hform
  change perform (template _ env level k) k d s = _
  rw [template, perform_inspect, hform]

variable (c env k d) in
theorem step_inner (hform : s.quasiForm? v = some (keyword, operand))
    (hk : keyword = .quasiquote ∨ level ≠ 1) : step c ⟨.template v env level, k, d, s⟩ =
      ⟨.template operand env (innerLevel keyword level), .quasiForm keyword :: k, d, s⟩ := by
  rw [step_form hform]
  cases keyword with
  | quasiquote => rfl
  | unquote | unquoteSplicing =>
    have hlevel := hk.resolve_left (by simp)
    simp only [templateForm, if_neg hlevel]
    rfl

theorem splice?_eq {P : Store → Prop} {T : Outline} (hT : Outlined P level v T) (hP : P s) :
    (if level = 1 then splice? s v else none) = T.splice? := by
  have hnone (h : s.quasiForm? v = none) : (if level = 1 then splice? s v else none) = none := by
    simp [splice?, h]
  cases hT with
  | atom hp =>
    cases v with
    | pair a => exact absurd rfl (hp a)
    | _ => exact hnone rfl
  | @code _ _ operand keyword hlevel _ hform =>
    rw [if_pos hlevel, splice?, hform s hP]
    cases keyword <;> rfl
  | form hk hform =>
    rcases hk with rfl | hlevel
    · simp [splice?, hform s hP, Outline.splice?]
    · rw [if_neg hlevel]
      rfl
  | pair hform => exact hnone (hform s hP)
  | vector => exact hnone rfl

variable (c env k d level) in
theorem step_pair (hform : s.quasiForm? (.pair a) = none) :
    step c ⟨.template (.pair a) env level, k, d, s⟩ =
      let p := s.pairAt a
      match if level = 1 then splice? s p.car else none with
      | some operand => ⟨.eval operand env, .quasiSplice p.cdr env level :: k, d, s⟩
      | none => ⟨.template p.car env level, .quasiRest p.cdr env level :: k, d, s⟩ := by
  change perform (template _ env level k) k d s = _
  rw [template, perform_inspect, hform]
  by_cases hlevel : level = 1
  · simp only [if_pos hlevel, perform_inspect]
    cases splice? s (s.pairAt a).car <;> rfl
  · simp only [if_neg hlevel]
    rfl

theorem step_vector : step c ⟨.template (.vector a) env level, k, d, s⟩ =
    ⟨.template (Build.list (s.vectorAt a).toList s).1 env level, .quasiVector :: k, d,
      (Build.list (s.vectorAt a).toList s).2⟩ := rfl

theorem perform_splice {rest v : Value} :
    perform (resume c v (.quasiSplice rest env level) k) k d s =
      perform (Reference.spliced v >>= fun items =>
        (pure (.template rest env level, .quasiAppend items :: k) : Move)) k d s := by
  rw [resume, perform_properList]
  cases h : s.properList? v with
  | some items =>
    have hok : Reference.spliced v s = .ok items s := Reference.properItems_some h
    rw [perform_bind _ hok]
  | none =>
    have hfails : Reference.spliced v s = .error _ s := Reference.properItems_none h
    rw [perform, perform, Action.bind_error hfails]
    rfl

end Steps

/-- The machine comes to read a part of the template in this store. Only the rest of the template
waits then, and no operand is being evaluated. -/
def Reads (c : Context) (m : Machine) (s : Store) : Prop := ∃ v env level k d,
  Later c m ⟨.template v env level, k, d, s⟩ ∧ ∀ waiting ∈ k, isTemplate waiting

abbrev evaluations (c : Context) (env : Environment) (d : Nat) : Value → Run :=
  fun operand => alone c d (.eval operand env)

theorem keptByAll_evaluations (B : Blind) (c : Context) (env : Environment) (d : Nat) :
    B.toDiscipline.KeptByAll (evaluations c env d) := by
  rintro o s hs ho v t ⟨n, d', h⟩
  have hm : (⟨.eval o env, [], d, s⟩ : Machine).Kept B.regimen :=
    ⟨hs, ⟨ho, B.everywhere env⟩, by simp⟩
  obtain ⟨hkept, hleads⟩ := B.iterate hm (c := c) n
  rw [h] at hkept hleads
  exact ⟨⟨hkept.store, hleads⟩, hkept.task.all⟩

structure Walking (own : Cells) (o s : Store) (T : Outline) : Prop where
  all : s.All s.Located
  located : T.Throughout s.Located
  hides : s.Hides own
  apart : T.Throughout fun v => ¬ own.Has v
  same : Store.SameIn own o s

namespace Walking

variable {own : Cells} {o s t : Store} {T U : Outline} {E : Value → Run} {v : Value}

theorem part (h : Walking own o s T) (hU : ∀ {R : Value → Prop}, T.Throughout R → U.Throughout R) :
    Walking own o s U :=
  { h with located := hU h.located, apart := hU h.apart }

theorem after {R : Run} (h : Walking own o s T) (hlocating : locating.KeptBy R s)
    (hsparing : (sparing own).KeptBy R s) (hR : R s (.value v) t) : Walking own o t T := by
  obtain ⟨⟨hall, hle⟩, -⟩ := hlocating v t hR
  obtain ⟨⟨hhides, hsame⟩, -⟩ := hsparing v t hR
  exact ⟨hall, h.located.mono fun _ hw => hw.leads hle.1 hle.2, hhides, h.apart,
    h.same.trans hsame⟩

variable {c : Context} {env : Environment} {d : Nat} {operand : Value} {keyword : QuasiKeyword}

theorem evaluated (h : Walking own o s T) (hcode : Walking own o s (.code keyword operand))
    (hv : evaluations c env d operand s (.value v) t) : Walking own o t T :=
  h.after (keptByAll_evaluations locating c env d _ s h.all hcode.located)
    (keptByAll_evaluations (sparing own) c env d _ s h.hides hcode.apart) hv

theorem ran (h : Walking own o s T) (hU : Walking own o s U)
    (hv : U.run (evaluations c env d) s (.value v) t) : Walking own o t T :=
  h.after (U.run_keeps (keptByAll_evaluations locating c env d) h.all hU.located)
    (U.run_keeps (keptByAll_evaluations (sparing own) c env d) h.hides hU.apart) hv

theorem made {more : Cells} (h : Walking own o s T) (hmakes : s.Makes own t more) :
    Walking more t t T where
  all := hmakes.located
  located := h.located.mono fun _ hv => hv.leads hmakes.grows.pairs_le hmakes.grows.vectors_le
  hides := hmakes.hides
  apart := (h.located.and h.apart).mono fun v hv hmore =>
    (hmakes.fresh v hmore).elim hv.2 (not_not.mpr hv.1)
  same := .refl t

end Walking

theorem outlined_consed {P : Store → Prop} {own : Cells} {o : Store} {w tail : Value}
    {values : List Value} {items : List Outline} {level : Nat} (hrow : o.Consed own w values tail)
    (htail : tail = .null) (hP : ∀ s, P s → Store.SameIn own o s) (hkeys : Unkeyed values)
    (hlength : values.length = items.length)
    (hitems : ∀ v T, (v, T) ∈ values.zip items → Outlined P level v T) :
    Outlined P level w (.ofList items) := by
  induction hrow generalizing items with
  | nil =>
    obtain rfl := List.length_eq_zero_iff.mp hlength.symm
    obtain rfl := htail
    exact .atom nofun nofun
  | @cons a values tail ha _ ih =>
    cases items with
    | nil => cases hlength
    | cons T items =>
      have hsame : ∀ s, P s → s.pairAt a = o.pairAt a := fun s hs => (hP s hs).pairAt_eq a ha
      refine .pair (fun s hs => ?_) hsame (hitems _ _ (.head _))
        (ih htail (fun x hx => hkeys x (.tail _ hx)) (Nat.succ.inj hlength)
          fun v T hT => hitems v T (.tail _ hT))
      refine Option.eq_none_iff_forall_ne_some.mpr fun q hq => ?_
      obtain ⟨x, _, hpair, hx, -⟩ := Store.quasiForm?_eq_some.mp hq
      rw [hsame s hs] at hpair
      have hnone := hkeys x (by rw [hpair]; exact .head _)
      cases hx.symm.trans hnone

variable {c : Context} {env : Environment} {start : Machine} {d : Nat}

/-- What comes of a template is what its outline tells, if it tells how the template reads whenever
the machine reads a part of it. -/
theorem comes_template {T : Outline} {own : Cells} {o s s' : Store} {v : Value} {level : Nat}
    {k : Stack} {r : Result}
    (hT : Outlined (fun t => Reads c start t ∧ Store.SameIn own o t) level v T)
    (h : Walking own o s T) (hlater : Later c start ⟨.template v env level, k, d, s⟩)
    (hrest : ∀ waiting ∈ k, isTemplate waiting) :
    alone c d (.template v env level) s r s' ↔ T.run (evaluations c env d) s r s' := by
  have hpush {k : Stack} {waiting : Pending} (hw : isTemplate waiting)
      (hk : ∀ waiting ∈ k, isTemplate waiting) : ∀ w ∈ waiting :: k, isTemplate w :=
    List.forall_mem_cons.mpr ⟨hw, hk⟩
  -- The outline tells which step the machine takes; each part is run with what waits for it on `k`.
  induction T generalizing own o s s' v level k r with
  | atom w =>
    cases hT with
    | atom hp hv =>
      rw [alone, ← comes_step, step_atom hp hv]
      exact comes_result (r := .value w)
  | code keyword operand =>
    cases hT with
    | code hlevel hk hform =>
      obtain rfl := hlevel
      rw [alone, ← comes_step, step_form (hform s ⟨⟨_, _, _, _, _, hlater, hrest⟩, h.same⟩)]
      cases keyword with
      | quasiquote => exact absurd rfl hk
      | unquote => exact Iff.rfl
      | unquoteSplicing =>
        exact (comes_result (r := .error _)).trans Run.doing_throw.symm
  | form keyword inner ih =>
    cases hT with
    | form hk hform hinner =>
      have hP : Reads c start s ∧ Store.SameIn own o s :=
        ⟨⟨_, _, _, _, _, hlater, hrest⟩, h.same⟩
      have hstep (k : Stack) := step_inner c env d k (hform s hP) hk
      have hlater := hlater.step
      rw [hstep] at hlater
      rw [alone, ← comes_step, hstep, comes_push rfl]
      exact Run.andThen_congr (fun r t => ih hinner (h.part id) hlater (hpush rfl hrest))
        fun v t _ => comes_give
  | pair car cdr ihcar ihcdr =>
    cases hT with
    | @pair _ a _ _ _ hform hpair hcar hcdr =>
      have hP : Reads c start s ∧ Store.SameIn own o s :=
        ⟨⟨_, _, _, _, _, hlater, hrest⟩, h.same⟩
      obtain rfl := hpair s hP
      have hstep (k : Stack) := step_pair c env level d k (hform s hP)
      -- The outline and the machine look for a splice in the same place.
      simp only [splice?_eq hcar hP] at hstep
      have hlater := hlater.step
      rw [hstep] at hlater
      rw [alone, ← comes_step, hstep]
      cases hsplice : car.splice? with
      | some operand =>
        obtain rfl := Outline.splice?_eq_some.mp hsplice
        rw [Outline.run_splice]
        rw [hsplice] at hlater
        refine (comes_push rfl).trans (Run.andThen_congr (fun _ _ => Iff.rfl) fun v t hv => ?_)
        have hlater := hlater.resume rfl hv
        rw [perform_splice] at hlater ⊢
        refine comes_doing.trans (Run.doing_congr fun items u hitems => ?_)
        rw [perform_bind _ hitems] at hlater
        -- Reading the list writes nothing, so the rest is walked in the store after the operand.
        obtain ⟨-, rfl⟩ := Reference.spliced_ok.mp hitems
        have hwalking := (h.part And.right).evaluated (h.part And.left) hv
        exact (comes_push rfl).trans (Run.andThen_congr
          (fun _ _ => ihcdr hcdr hwalking hlater (hpush rfl hrest)) fun rest _ _ => comes_give)
      | none =>
        rw [Outline.run_pair hsplice]
        rw [hsplice] at hlater
        have hfirst (r : Result) (t : Store) :
            alone c d (.template (s.pairAt a).car env level) s r t ↔
              car.run (evaluations c env d) s r t :=
          ihcar hcar (h.part And.left) hlater (hpush rfl hrest)
        refine (comes_push rfl).trans (Run.andThen_congr hfirst fun x t hx => ?_)
        have hlater := hlater.resume rfl hx
        have hwalking := (h.part And.right).ran (h.part And.left) ((hfirst _ _).mp hx)
        exact (comes_push rfl).trans (Run.andThen_congr
          (fun _ _ => ihcdr hcdr hwalking hlater (hpush rfl hrest)) fun y _ _ => comes_give)
  | vector values list ih =>
    cases hT with
    | @vector _ a _ items hvector hkeys hlength hitems =>
      obtain rfl := hvector s ⟨⟨_, _, _, _, _, hlater, hrest⟩, h.same⟩
      have hlater := hlater.step
      rw [step_vector] at hlater
      rw [alone, ← comes_step, step_vector, Outline.run, Run.doing_lift]
      -- A vector is walked as a list of its items that is made first, and nothing else refers to.
      obtain ⟨more, hmakes, hrow⟩ := h.hides.listWithTail h.all _ .null h.located.1 trivial
      have hlist := outlined_consed (P := fun t => Reads c start t ∧ Store.SameIn more _ t)
        hrow rfl (fun _ hP => hP.2) hkeys hlength fun v T hT => (hitems v T hT).mono
          fun t hP => ⟨hP.1, h.same.trans (hmakes.sameIn h.hides hP.2)⟩
      have hwalking := (h.part And.right).made hmakes
      exact (comes_push rfl).trans (Run.andThen_congr
        (fun _ _ => ih hlist hwalking hlater (hpush rfl hrest)) fun v t _ =>
          comes_give (a := liftM (Build.vector ((t.properList? v).getD []).toArray)))

end Machine

end HygienicScheme
