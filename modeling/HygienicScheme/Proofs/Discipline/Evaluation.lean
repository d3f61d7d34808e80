import HygienicScheme.Machine.Run
import HygienicScheme.Proofs.Discipline.Primitives
import HygienicScheme.Proofs.Procedures.Closures

/-!
# Regimens

A regimen is a discipline that also says of forms what may stand in them. The evaluator follows a
form: some parts it takes for code, some for operands or templates, and others for data. If it
comes only upon data where it takes a part for data, then each of its steps keeps what the regimen
says, and so does every run.
-/
namespace HygienicScheme

/-- As what the evaluator takes a value. -/
inductive Role
  | code
  | operands
  /-- A template below so many levels of quasiquotation. -/
  | template (level : Nat)

def Role.within (keyword : QuasiKeyword) (level : Nat) : Role :=
  if keyword = .quasiquote then .template (level + 1)
  else if level = 1 then .code
  else .template (level - 1)

open Machine (specialForm?)

structure Regimen extends EvaluationDiscipline where
  Form : Role → Store → Value → Prop
  /-- What a program may have expanded. -/
  Expandable : Store → Value → Prop
  /-- The vectors that a program may have as templates. -/
  Listable : Store → Address → Prop
  /-- The promises that a program may have forced. -/
  Settleable : Store → Address → Prop
  form_leads : ∀ {role s t v}, Leads s t → Form role s v → Form role t v
  form_data : ∀ {role s v}, Data s v → Form role s v
  code_atom : ∀ {s v}, Form .code s v → (∀ a, v ≠ .pair a) → (∀ x, v ≠ .symbol x) → Data s v
  quoted : ∀ {s a}, Form .code s (.pair a) → specialForm? (s.pairAt a).car = some .quote →
    Data s (.pair a)
  quasiquoted : ∀ {s a v}, Holds s → Form .code s (.pair a) →
    specialForm? (s.pairAt a).car = some .quasiquote →
    s.properList? (s.pairAt a).cdr = some [v] → Form (.template 1) s v
  slots : ∀ {s a}, Holds s → Form .code s (.pair a) →
    specialForm? (s.pairAt a).car ≠ some .quasiquote →
    specialForm? (s.pairAt a).car ≠ some .defineSyntax →
    Form .code s (s.pairAt a).car ∧ Form .operands s (s.pairAt a).cdr
  operands : ∀ {s v items}, Holds s → Form .operands s v → s.properList? v = some items →
    ∀ w ∈ items, Form .code s w
  template_atom : ∀ {s v level}, Form (.template level) s v → (∀ a, v ≠ .pair a) →
    (∀ a, v ≠ .vector a) → Data s v
  template_operand : ∀ {s a level keyword operand}, Holds s → Form (.template level) s (.pair a) →
    s.quasiForm? (.pair a) = some (keyword, operand) → Form (.within keyword level) s operand
  template_slots : ∀ {s a level}, Holds s → Form (.template level) s (.pair a) →
    s.quasiForm? (.pair a) = none →
    Form (.template level) s (s.pairAt a).car ∧ Form (.template level) s (s.pairAt a).cdr
  template_list : ∀ {s a level}, Holds s → Form (.template level) s (.vector a) → Listable s a →
    let r := Build.list (s.vectorAt a).toList s
    (Holds r.2 ∧ Leads s r.2) ∧ Form (.template level) r.2 r.1
  settle : ∀ {s v thunk} a, Holds s → Settleable s a → s.promiseAt a = .delayed thunk → Data s v →
    let t := { s with promises := s.promises.setIfInBounds a (.forced v) }
    Holds t ∧ Leads s t
  body : ∀ {s} a, Holds s → Data s (.closure a) → ∀ v ∈ (s.closureAt a).body, Form .code s v
  scope : ∀ {s} a, Holds s → Scope (s.closureAt a).env
  closure : ∀ {s c}, Holds s → Scope c.env → c.WellFormed → (∀ v ∈ c.body, Form .code s v) →
    let t := { s with closures := s.closures.push c }
    (Holds t ∧ Leads s t) ∧ Data t (.closure s.closures.size)
  named : ∀ {s x}, Form .code s (.symbol x) → Variable x := by exact fun _ => trivial
  header : ∀ {s a x}, Holds s → Form .code s (.pair a) → (s.pairAt a).car = .symbol x →
    Variable x := by exact fun _ _ _ => trivial
  expanded : ∀ {s v} env, Scope env → Holds s → Data s v → Expandable s v →
    toDiscipline.Keeps (Expansion.expandToplevel env v) s (Form .code)

section Values

variable (form : Role → Value → Prop) (data : Value → Prop)

def Task.All : Task → Prop
  | .eval v _ | .tail v _ => form .code v
  | .apply f args => data f ∧ ∀ v ∈ args, data v
  | .template v _ level => form (.template level) v
  | .value v => data v
  | .escape id v => data (.escape id) ∧ data v
  | .error _ => True

def Pending.All : Pending → Prop
  | .operator list _ => form .operands list
  | .operands f done more _ => data f ∧ (∀ v ∈ done, data v) ∧ ∀ v ∈ more, form .code v
  | .branch consequent alternative _ => form .code consequent ∧ ∀ v ∈ alternative, form .code v
  | .body more _ | .conjunction more _ | .disjunction more _ => ∀ v ∈ more, form .code v
  | .mapping f columns done =>
    data f ∧ (∀ column ∈ columns, ∀ v ∈ column, data v) ∧ ∀ v ∈ done, data v
  | .iteration f columns => data f ∧ ∀ column ∈ columns, ∀ v ∈ column, data v
  | .capture id => data (.escape id)
  | .quasiSplice rest _ level | .quasiRest rest _ level => form (.template level) rest
  | .quasiAppend items => ∀ v ∈ items, data v
  | .quasiCons car => data car
  | .nested | .call | .definition .. | .assignment .. | .forcing _ | .quasiForm _
  | .quasiVector => True

variable {form data} {form' : Role → Value → Prop} {data' : Value → Prop}

theorem Task.All.mono (hform : ∀ role v, form role v → form' role v)
    (hdata : ∀ v, data v → data' v) {task : Task} (h : task.All form data) :
    task.All form' data' := by
  cases task with
  | eval | tail | template => exact hform _ _ h
  | apply => exact ⟨hdata _ h.1, fun v hv => hdata v (h.2 v hv)⟩
  | value => exact hdata _ h
  | escape => exact ⟨hdata _ h.1, hdata _ h.2⟩
  | error => trivial

theorem Task.All.of_forall (hform : ∀ role v, form role v) (hdata : ∀ v, data v) {task : Task} :
    task.All form data := by
  cases task with
  | eval | tail | template => exact hform _ _
  | apply => exact ⟨hdata _, fun v _ => hdata v⟩
  | value => exact hdata _
  | escape => exact ⟨hdata _, hdata _⟩
  | error => trivial

theorem Pending.All.of_forall (hform : ∀ role v, form role v) (hdata : ∀ v, data v)
    {waiting : Pending} : waiting.All form data := by
  cases waiting with
  | operator | quasiSplice | quasiRest => exact hform _ _
  | operands => exact ⟨hdata _, fun v _ => hdata v, fun v _ => hform _ v⟩
  | branch => exact ⟨hform _ _, fun v _ => hform _ v⟩
  | body | conjunction | disjunction => exact fun v _ => hform _ v
  | mapping => exact ⟨hdata _, fun _ _ v _ => hdata v, fun v _ => hdata v⟩
  | iteration => exact ⟨hdata _, fun _ _ v _ => hdata v⟩
  | capture | quasiCons => exact hdata _
  | quasiAppend => exact fun v _ => hdata v
  | _ => trivial

theorem Pending.All.mono (hform : ∀ role v, form role v → form' role v)
    (hdata : ∀ v, data v → data' v) {waiting : Pending} (h : waiting.All form data) :
    waiting.All form' data' := by
  cases waiting with
  | operator | quasiSplice | quasiRest => exact hform _ _ h
  | operands =>
    exact ⟨hdata _ h.1, fun v hv => hdata v (h.2.1 v hv), fun v hv => hform _ v (h.2.2 v hv)⟩
  | branch => exact ⟨hform _ _ h.1, fun v hv => hform _ v (h.2 v hv)⟩
  | body | conjunction | disjunction => exact fun v hv => hform _ v (h v hv)
  | mapping =>
    exact ⟨hdata _ h.1, fun column hcolumn v hv => hdata v (h.2.1 column hcolumn v hv),
      fun v hv => hdata v (h.2.2 v hv)⟩
  | iteration =>
    exact ⟨hdata _ h.1, fun column hcolumn v hv => hdata v (h.2 column hcolumn v hv)⟩
  | capture | quasiCons => exact hdata _ h
  | quasiAppend => exact fun v hv => hdata v (h v hv)
  | _ => trivial

end Values

def Task.env? : Task → Option Environment
  | .eval _ env | .tail _ env | .template _ env _ => some env
  | .apply .. | .value _ | .escape .. | .error _ => none

def Pending.env? : Pending → Option Environment
  | .operator _ env | .operands _ _ _ env | .branch _ _ env | .definition _ env
  | .assignment _ env | .body _ env | .conjunction _ env | .disjunction _ env
  | .quasiSplice _ env _ | .quasiRest _ env _ => some env
  | .nested | .call | .mapping .. | .iteration .. | .forcing _ | .capture _ | .quasiForm _
  | .quasiAppend _ | .quasiCons _ | .quasiVector => none

def Regimen.Within (R : Regimen) : Option Environment → Prop
  | some env => R.Scope env
  | none => True

def Pending.Within (R : Regimen) : Pending → Prop
  | .definition x env | .assignment x env => R.Variable x ∧ R.Scope env
  | waiting => R.Within waiting.env?

theorem Pending.Within.scope {R : Regimen} {waiting : Pending} {env : Environment}
    (h : waiting.Within R) (henv : waiting.env? = some env) : R.Scope env := by
  cases waiting <;> cases henv <;> first | exact h | exact h.2

structure Task.Kept (R : Regimen) (s : Store) (task : Task) : Prop where
  all : task.All (fun role => R.Form role s) (R.Data s)
  scope : R.Within task.env?

structure Pending.Kept (R : Regimen) (s : Store) (waiting : Pending) : Prop where
  all : waiting.All (fun role => R.Form role s) (R.Data s)
  scope : waiting.Within R

def Pending.capture? : Pending → Option Nat
  | .capture id => some id
  | _ => none

namespace Machine

def captures (k : Stack) : List Nat := k.filterMap Pending.capture?

structure Settles (m : Machine) (a : Address) (v : Value) : Prop where
  task : m.task = .value v
  stack : ∃ k, m.stack = .forcing a :: k
  delayed : ∃ thunk, m.store.promiseAt a = .delayed thunk

structure Kept (R : Regimen) (m : Machine) : Prop where
  store : R.Holds m.store
  task : m.task.Kept R m.store
  stack : ∀ waiting ∈ m.stack, waiting.Kept R m.store

end Machine

namespace Regimen

open Discipline BuildingDiscipline PrimitiveDiscipline EvaluationDiscipline Machine

variable {R : Regimen} {o s t : Store} {v w f : Value} {items done more args forms : List Value}
  {columns : List (List Value)} {k : Stack} {env : Environment} {c : Context} {level : Nat}

theorem forms_leads {role : Role} (hst : R.Leads s t) (h : ∀ v ∈ items, R.Form role s v) :
    ∀ v ∈ items, R.Form role t v := fun v hv => R.form_leads hst (h v hv)

end Regimen

theorem Pending.Kept.leads {R : Regimen} {s t : Store} {waiting : Pending} (hst : R.Leads s t)
    (h : waiting.Kept R s) : waiting.Kept R t :=
  ⟨h.all.mono (fun _ _ hv => R.form_leads hst hv) fun _ hv => R.data_leads hst hv, h.scope⟩

namespace Regimen

open Discipline BuildingDiscipline PrimitiveDiscipline EvaluationDiscipline Machine

variable {R : Regimen} {o s t : Store} {v w f : Value} {items done more args forms : List Value}
  {columns : List (List Value)} {k : Stack} {env : Environment} {c : Context} {level : Nat}

variable (R) in
structure Lands (o : Store) (k : Stack) (t : Store) (next : Task × Stack) : Prop where
  task : next.1.Kept R t
  pushes : ∃ new, next.2 = new ++ k ∧ (∀ waiting ∈ new, waiting.Kept R t) ∧
    (captures new = [] ∨ captures new = [o.exits + 1])

theorem lands {task : Task} (h : task.Kept R t) : R.Lands o k t (task, k) :=
  ⟨h, [], rfl, by simp, .inl rfl⟩

theorem lands_push {task : Task} {waiting : Pending} (h : task.Kept R t) (hw : waiting.Kept R t)
    (hc : waiting.capture? = none) : R.Lands o k t (task, waiting :: k) :=
  ⟨h, [waiting], rfl, by simpa using hw, .inl (by simp [captures, hc])⟩

theorem lands_call {task : Task} {waiting : Pending} (h : task.Kept R t) (hw : waiting.Kept R t)
    (hc : waiting.capture? = none) : R.Lands o k t (task, .call :: waiting :: k) :=
  ⟨h, [.call, waiting], rfl, List.forall_mem_cons.mpr ⟨⟨trivial, trivial⟩, by simpa using hw⟩,
    .inl (by simp [captures, hc, show Pending.call.capture? = none from rfl])⟩

theorem nextRow?_data {row : List Value} {rest : List (List Value)}
    (h : ∀ column ∈ columns, ∀ v ∈ column, R.Data s v)
    (hrow : nextRow? columns = some (row, rest)) :
    (∀ v ∈ row, R.Data s v) ∧ ∀ column ∈ rest, ∀ v ∈ column, R.Data s v := by
  induction columns generalizing row rest with
  | nil =>
    cases hrow
    simp
  | cons column more ih =>
    obtain ⟨hcolumn, hmore⟩ := List.forall_mem_cons.mp h
    cases column with
    | nil => cases hrow
    | cons v column =>
      obtain ⟨hv, hcolumn⟩ := List.forall_mem_cons.mp hcolumn
      cases hnext : nextRow? more with
      | none => simp [nextRow?, hnext] at hrow
      | some next =>
        obtain ⟨hrow', hrest⟩ := ih hmore hnext
        simp only [nextRow?, hnext, Option.some.injEq, Prod.mk.injEq] at hrow
        obtain ⟨rfl, rfl⟩ := hrow
        exact ⟨List.forall_mem_cons.mpr ⟨hv, hrow'⟩, List.forall_mem_cons.mpr ⟨hcolumn, hrest⟩⟩

theorem addBinding_data {bound bs : List (Symbol × Value)} {x : Symbol}
    (hbound : ∀ b ∈ bound, R.Data s b.2) (hv : R.Data s v) (h : addBinding bound x v = .ok bs) :
    ∀ b ∈ bs, R.Data s b.2 := by
  unfold addBinding at h
  split_ifs at h
  cases h
  intro b hb
  rcases List.mem_append.mp hb with hb | hb
  · exact hbound b hb
  · rw [List.mem_singleton.mp hb]
    exact hv

theorem bindAll_data {bound pairs bs : List (Symbol × Value)} (hbound : ∀ b ∈ bound, R.Data s b.2)
    (hpairs : ∀ b ∈ pairs, R.Data s b.2) (h : Procedure.bindAll bound pairs = .ok bs) :
    ∀ b ∈ bs, R.Data s b.2 := by
  induction pairs generalizing bound with
  | nil =>
    cases h
    exact hbound
  | cons p more ih =>
    obtain ⟨hp, hmore⟩ := List.forall_mem_cons.mp hpairs
    obtain ⟨bound', hbound', h⟩ := SyntaxRules.ok_of_bind h
    exact ih (addBinding_data hbound hp hbound') hmore h

section Moves

variable (hs : R.Holds s)

include hs

theorem keeps_giveValue (hv : R.Data s v) : R.Keeps (giveValue v k) s (R.Lands o k) :=
  .pure hs (lands ⟨hv, trivial⟩)

section Scoped

variable (henv : R.Scope env)

include henv

theorem keeps_sequence (h : ∀ v ∈ forms, R.Form .code s v) :
    R.Keeps (sequence forms env k) s (R.Lands o k) := by
  match forms with
  | [] => exact keeps_giveValue hs unspecified
  | [last] => exact .pure hs (lands ⟨h last (by simp), henv⟩)
  | form :: next :: more =>
    obtain ⟨hform, hmore⟩ := List.forall_mem_cons.mp h
    exact .pure hs (lands_push ⟨hform, henv⟩ ⟨hmore, henv⟩ rfl)

theorem keeps_conjunction (h : ∀ v ∈ forms, R.Form .code s v) :
    R.Keeps (conjunction forms env k) s (R.Lands o k) := by
  match forms with
  | [] => exact keeps_giveValue hs (bool true)
  | [last] => exact .pure hs (lands ⟨h last (by simp), henv⟩)
  | form :: next :: more =>
    obtain ⟨hform, hmore⟩ := List.forall_mem_cons.mp h
    exact .pure hs (lands_push ⟨hform, henv⟩ ⟨hmore, henv⟩ rfl)

theorem keeps_disjunction (h : ∀ v ∈ forms, R.Form .code s v) :
    R.Keeps (disjunction forms env k) s (R.Lands o k) := by
  match forms with
  | [] => exact keeps_giveValue hs (bool false)
  | [last] => exact .pure hs (lands ⟨h last (by simp), henv⟩)
  | form :: next :: more =>
    obtain ⟨hform, hmore⟩ := List.forall_mem_cons.mp h
    exact .pure hs (lands_push ⟨hform, henv⟩ ⟨hmore, henv⟩ rfl)

theorem keeps_arguments (hf : R.Data s f) (hdone : ∀ v ∈ done, R.Data s v)
    (hmore : ∀ v ∈ more, R.Form .code s v) :
    R.Keeps (arguments f done more env k) s (R.Lands o k) := by
  cases more with
  | nil => exact .pure hs (lands ⟨⟨hf, by simpa using hdone⟩, trivial⟩)
  | cons form more =>
    obtain ⟨hform, hmore⟩ := List.forall_mem_cons.mp hmore
    exact .pure hs (lands_push ⟨hform, henv⟩ ⟨⟨hf, hdone, hmore⟩, henv⟩ rfl)

/-- A new closure has the forms of its body, and the environment in which it was made. -/
theorem keeps_make (formals : Value) (name : Option String)
    (hbody : ∀ v ∈ items, R.Form .code s v) :
    R.Keeps (Procedure.make formals items env name) s R.Data := by
  unfold Procedure.make
  split
  · exact .throw hs
  · rename_i hitems
    refine .inspect_bind (Keeps.bind (Q := fun _ parsed => (parsed.1 ++ parsed.2.toList).Nodup)
      (.except hs fun _ h => Procedure.formals_nodup h) ?_)
    intro parsed t ht hst hdistinct
    let closure : Closure := ⟨parsed.1, parsed.2, items, env, name⟩
    have hwell : closure.WellFormed := ⟨hdistinct, fun h => hitems (List.isEmpty_iff.mpr h)⟩
    have hmade := R.closure ht henv hwell (forms_leads hst hbody)
    exact .lift hmade.1 hmade.2

end Scoped

theorem keeps_define_binding {x : Symbol} (hx : R.Variable x) (hv : R.Data s v) :
    R.Keeps (Action.define env x v) s Anything := by
  refine .inspect_bind ?_
  split
  · exact .throw hs
  · exact .change (R.bind env.frame x hx hs hv) trivial

theorem keeps_bindDefinition {x : Symbol} (hx : R.Variable x) (hv : R.Data s v) :
    R.Keeps (bindDefinition c x v env k) s (R.Lands o k) := by
  unfold bindDefinition
  split
  · exact (Keeps.change (Q := Anything) (R.bind env.frame x hx hs hv) trivial).bind
      fun _ _ ht _ _ => keeps_giveValue ht unspecified
  · exact (keeps_define_binding hs hx hv).bind fun _ _ ht _ _ => keeps_giveValue ht unspecified

omit hs in
theorem resolve?_variable {x key : Symbol} {f : Address} (hx : R.Variable x)
    (h : s.resolve? env x = some (f, key)) : R.Variable key := by
  unfold Store.resolve? at h
  split at h
  · cases h
    exact hx
  · split_ifs at h
    obtain ⟨_, -, hkey⟩ := Option.map_eq_some_iff.mp h
    cases hkey
    exact R.variable_unstamped x

theorem keeps_assign {x : Symbol} (hx : R.Variable x) (hv : R.Data s v) :
    R.Keeps (Action.assign env x v) s Anything := by
  refine .inspect_bind ?_
  split
  · rename_i hresolve
    exact .change (R.bind _ _ (resolve?_variable hx hresolve) hs hv) trivial
  · exact .throw hs

theorem lambdaParts?_body {formals form : Value} {body : List Value}
    (hform : R.Form .code s form) (h : lambdaParts? s form = some (formals, body)) :
    ∀ v ∈ body, R.Form .code s v := by
  unfold lambdaParts? at h
  split at h
  · rename_i head formals body hlist
    split_ifs at h with hhead
    cases h
    cases form with
    | pair a =>
      obtain ⟨hcar, hcdr⟩ := Store.properList?_pair.mp hlist
      simp only [Bool.and_eq_true, beq_iff_eq, Bool.not_eq_true'] at hhead
      have hlambda : specialForm? (s.pairAt a).car = some .lambda := by
        simp [← hcar, specialForm?, SpecialForm.ofSymbol?, hhead, SpecialForm.ofName?]
      obtain ⟨-, hoperands⟩ := R.slots hs hform (by simp [hlambda]) (by simp [hlambda])
      exact (List.forall_mem_cons.mp (R.operands hs hoperands hcdr)).2
    | _ => cases Store.properList?_eq_some.mp hlist
  · cases h

theorem keeps_define (henv : R.Scope env) (h : ∀ v ∈ forms, R.Form .code s v) :
    R.Keeps (define c forms env k) s (R.Lands o k) := by
  unfold define
  split
  · exact .throw hs
  · rename_i x rest
    split
    · rename_i form
      have hform := h form (by simp)
      have hx : R.Variable x := R.named (h (.symbol x) (by simp))
      refine Keeps.bind (Q := Anything) (.except hs fun _ _ => trivial) fun _ t ht hst _ =>
        .inspect_bind ?_
      have hform' := R.form_leads hst hform
      split
      · rename_i formals body hparts
        exact (keeps_make ht henv formals _ (lambdaParts?_body ht hform' hparts)).bind
          fun _ _ hu _ hv => keeps_bindDefinition hu hx hv
      · exact .pure ht (lands_push ⟨hform', henv⟩ ⟨trivial, hx, henv⟩ rfl)
    · exact .throw hs
  · rename_i a body
    refine .inspect_bind ?_
    split
    · rename_i x hcar
      obtain ⟨hheader, hbody⟩ := List.forall_mem_cons.mp h
      have hx : R.Variable x := R.header hs hheader hcar
      refine Keeps.bind (Q := Anything) (.except hs fun _ _ => trivial) fun _ t ht hst _ => ?_
      exact (keeps_make ht henv _ _ (forms_leads hst hbody)).bind
        fun _ _ hu _ hv => keeps_bindDefinition hu hx hv
    · exact .throw hs
  · exact .throw hs

theorem keeps_special {form : SpecialForm} {a : Address} (henv : R.Scope env)
    (hform : R.Form .code s (.pair a))
    (hcar : specialForm? (s.pairAt a).car = some form) :
    R.Keeps (special c form (s.pairAt a).cdr env k) s (R.Lands o k) := by
  refine .inspect_bind ?_
  cases hlist : s.properList? (s.pairAt a).cdr with
  | none => exact .throw hs
  | some operands =>
    have hcode (hquasiquote : form ≠ .quasiquote) (hdefinition : form ≠ .defineSyntax) :
        ∀ v ∈ operands, R.Form .code s v :=
      R.operands hs (R.slots hs hform (by simp [hcar, hquasiquote])
        (by simp [hcar, hdefinition])).2 hlist
    dsimp only
    split
    · rename_i v
      exact keeps_giveValue hs
        (properList hs (cdr hs (R.quoted hform hcar)) hlist v (by simp))
    · exact .throw hs
    · exact .pure hs (lands ⟨R.quasiquoted hs hform hcar hlist, henv⟩)
    · exact .throw hs
    · exact .throw hs
    · rename_i formals body
      exact (keeps_make hs henv formals none (List.forall_mem_cons.mp (hcode nofun nofun)).2).bind
        fun _ _ ht _ hv => keeps_giveValue ht hv
    · exact .throw hs
    · have hcode := hcode nofun nofun
      simp only [List.forall_mem_cons] at hcode
      exact .pure hs (lands_push ⟨hcode.1, henv⟩ ⟨⟨hcode.2.1, by simp⟩, henv⟩ rfl)
    · have hcode := hcode nofun nofun
      simp only [List.forall_mem_cons] at hcode
      exact .pure hs (lands_push ⟨hcode.1, henv⟩
        ⟨⟨hcode.2.1, by simpa using hcode.2.2.1⟩, henv⟩ rfl)
    · exact .throw hs
    · exact keeps_define hs henv (hcode nofun nofun)
    · rename_i x form
      have hx : R.Variable x := R.named (hcode nofun nofun (.symbol x) (by simp))
      exact .pure hs (lands_push ⟨hcode nofun nofun form (by simp), henv⟩ ⟨trivial, hx, henv⟩ rfl)
    · exact .throw hs
    · exact .throw hs
    · exact keeps_sequence hs henv (hcode nofun nofun)
    · exact keeps_conjunction hs henv (hcode nofun nofun)
    · exact keeps_disjunction hs henv (hcode nofun nofun)
    · exact keeps_giveValue hs unspecified
    · exact .throw hs

theorem lookup?_data {x : Symbol} (hx : R.Variable x) (h : s.lookup? env x = some v) :
    R.Data s v := by
  have hexact : ∀ {x chain}, R.Variable x → s.lookupExact? x chain = some v → R.Data s v := by
    intro x chain hx h
    induction chain with
    | nil => cases h
    | cons f outer ih =>
      unfold Store.lookupExact? at h
      split at h
      · rename_i found
        cases h
        exact R.bound (f := f) (b := (x, v)) hs hx (SyntaxRules.mem_of_lookup found)
      · exact ih h
  unfold Store.lookup? at h
  split at h
  · rename_i found
    cases h
    exact hexact hx found
  · split_ifs at h
    exact hexact (R.variable_unstamped x) h

theorem keeps_evaluate (henv : R.Scope env) (hv : R.Form .code s v) :
    R.Keeps (evaluate c v env k) s (R.Lands o k) := by
  cases v with
  | symbol x =>
    refine Keeps.bind (Q := R.Data) (.inspect_bind ?_) fun _ _ ht _ hw => keeps_giveValue ht hw
    cases hlookup : s.lookup? env x with
    | some w => exact .pure hs (lookup?_data hs (R.named hv) hlookup)
    | none => exact .throw hs
  | pair a =>
    refine .inspect_bind ?_
    cases hcar : specialForm? (s.pairAt a).car with
    | some form => exact keeps_special hs henv hv hcar
    | none =>
      obtain ⟨hcode, hoperands⟩ := R.slots hs hv (by simp [hcar]) (by simp [hcar])
      exact .pure hs (lands_push ⟨hcode, henv⟩ ⟨hoperands, henv⟩ rfl)
  | null => exact .throw hs
  | _ => exact keeps_giveValue hs (R.code_atom hv (by simp) (by simp))

theorem keeps_map (hf : R.Data s f) (hcolumns : ∀ column ∈ columns, ∀ v ∈ column, R.Data s v)
    (hdone : ∀ v ∈ done, R.Data s v) : R.Keeps (map f columns done k) s (R.Lands o k) := by
  unfold Machine.map
  cases hnext : nextRow? columns with
  | some next =>
    obtain ⟨hrow, hrest⟩ := nextRow?_data hcolumns hnext
    exact .pure hs (lands_call ⟨⟨hf, hrow⟩, trivial⟩ ⟨⟨hf, hrest, hdone⟩, trivial⟩ rfl)
  | none =>
    exact (keeps_list hs (by simpa using hdone)).bind fun _ _ ht _ hv => keeps_giveValue ht hv

theorem keeps_forEach (hf : R.Data s f) (hcolumns : ∀ column ∈ columns, ∀ v ∈ column, R.Data s v) :
    R.Keeps (forEach f columns k) s (R.Lands o k) := by
  unfold forEach
  cases hnext : nextRow? columns with
  | some next =>
    obtain ⟨hrow, hrest⟩ := nextRow?_data hcolumns hnext
    exact .pure hs (lands_call ⟨⟨hf, hrow⟩, trivial⟩ ⟨⟨hf, hrest⟩, trivial⟩ rfl)
  | none => exact keeps_giveValue hs unspecified

theorem keeps_columns (procedure : String) {lists : List Value} (h : ∀ v ∈ lists, R.Data s v) :
    R.Keeps (lists.mapM (Argument.list procedure)) s fun t columns =>
      ∀ column ∈ columns, ∀ v ∈ column, R.Data t v :=
  .mapM (R := fun t column => ∀ v ∈ column, R.Data t v) hs (fun hst h => all_leads hst h)
    fun v hv _ ht hst => keeps_listArgument ht procedure (R.data_leads hst (h v hv))

theorem keeps_output (procedure : String) (target : List Value) (text : Store → String) :
    R.Keeps (do
      checkOutput procedure target
      emit (← Action.inspect text)
      giveValue .unspecified k) s (R.Lands o k) := by
  have hcheck : R.Keeps (checkOutput procedure target) s Anything := by
    unfold checkOutput
    split
    · exact .pure hs trivial
    · exact .pure hs trivial
    · exact keeps_reject hs _ _ _
  refine hcheck.bind fun _ t ht _ _ => .inspect_bind ?_
  exact (Keeps.change (Q := Anything) (R.emit _ ht) trivial).bind fun _ _ hu _ _ =>
    keeps_giveValue hu unspecified

theorem keeps_force (a : Address) : R.Keeps (force a k) s (R.Lands o k) := by
  refine .inspect_bind ?_
  have hcontent := R.promised a hs
  cases hpromise : s.promiseAt a with
  | forced v =>
    rw [hpromise] at hcontent
    exact keeps_giveValue hs hcontent
  | delayed thunk =>
    rw [hpromise] at hcontent
    exact .pure hs (lands_call ⟨⟨hcontent, by simp⟩, trivial⟩ ⟨trivial, trivial⟩ rfl)

theorem keeps_settle (a : Address) (hv : R.Data s v)
    (hsettleable : ∀ thunk, s.promiseAt a = .delayed thunk → R.Settleable s a) :
    R.Keeps (Machine.settle a v k) s (R.Lands o k) := by
  refine .inspect_bind ?_
  have hcontent := R.promised a hs
  cases hpromise : s.promiseAt a with
  | forced w =>
    rw [hpromise] at hcontent
    exact keeps_giveValue hs hcontent
  | delayed thunk =>
    have hsettle := R.settle a hs (hsettleable thunk hpromise) hpromise hv
    exact (Keeps.change (Q := fun t _ => R.Data t v) hsettle (R.data_leads hsettle.2 hv)).bind
      fun _ _ ht _ hv => keeps_giveValue ht hv

theorem keeps_capture (hf : R.Data s f) : R.Keeps (capture f k) s (R.Lands s k) := by
  obtain ⟨⟨ht, hst⟩, hexit⟩ := R.exit hs
  refine Keeps.bind (Q := fun t id => id = s.exits + 1 ∧ R.Data t f ∧ R.Data t (.escape id))
    ⟨⟨ht, hst⟩, fun id t h => ?_⟩ fun id t ht _ h => ?_
  · cases h
    exact ⟨rfl, R.data_leads hst hf, hexit⟩
  · obtain ⟨rfl, hf, hexit⟩ := h
    refine .pure ht ⟨⟨⟨hf, by simpa using hexit⟩, trivial⟩, [.call, .capture (s.exits + 1)], rfl,
      ?_, .inr rfl⟩
    exact List.forall_mem_cons.mpr
      ⟨⟨trivial, trivial⟩, List.forall_mem_singleton.mpr ⟨hexit, trivial⟩⟩

theorem keeps_applySpread (hf : R.Data s f) (hmore : ∀ v ∈ more, R.Data s v) :
    R.Keeps (Machine.control c .apply (f :: more) k) s (R.Lands o k) := by
  unfold Machine.control
  dsimp only
  cases hlast : more.getLast? with
  | none => exact .pure hs (lands ⟨⟨hf, by simp⟩, trivial⟩)
  | some last =>
    refine (keeps_listArgument hs "apply" (hmore last (List.mem_of_getLast? hlast))).bind ?_
    intro spread t ht hst hspread
    refine .pure ht (lands ⟨⟨R.data_leads hst hf, fun v hv => ?_⟩, trivial⟩)
    rcases List.mem_append.mp hv with hv | hv
    · exact R.data_leads hst (hmore v (List.dropLast_subset _ hv))
    · exact hspread v hv

theorem keeps_control (hglobal : R.Scope c.global) (op : Control) (hargs : ∀ v ∈ args, R.Data s v)
    (hexpandable : op = .eval → ∀ form ∈ args.head?, R.Expandable s form) :
    R.Keeps (Machine.control c op args k) s (R.Lands s k) := by
  unfold Machine.control
  split
  all_goals try simp only [List.forall_mem_cons] at hargs
  · exact keeps_applySpread (c := c) hs hargs.1 hargs.2
  · exact (keeps_columns hs "map" hargs.2).bind fun _ _ ht hst hcolumns =>
      keeps_map ht (R.data_leads hst hargs.1) hcolumns (by simp)
  · exact (keeps_columns hs "for-each" hargs.2).bind fun _ _ ht hst hcolumns =>
      keeps_forEach ht (R.data_leads hst hargs.1) hcolumns
  · exact keeps_capture hs hargs.1
  · exact keeps_capture hs hargs.1
  · exact (R.expanded c.global hglobal hs hargs.1 (hexpandable rfl _ (by simp))).bind
      fun _ _ ht _ hform => .pure ht (lands ⟨hform, hglobal⟩)
  · exact keeps_force hs _
  · exact keeps_giveValue hs hargs.1
  · exact keeps_output hs "display" _ _
  · exact keeps_output hs "write" _ _
  · exact keeps_output hs "newline" _ fun _ => "\n"
  · exact keeps_giveValue hs (R.constant rfl nofun nofun nofun)
  · exact keeps_miscounted hs _ _ _

theorem keeps_bind {closure : Closure} (henv : R.Scope closure.env)
    (hargs : ∀ v ∈ args, R.Data s v) :
    R.Keeps (Procedure.bind closure args) s fun _ => R.Scope := by
  unfold Procedure.bind
  have hzip : ∀ b ∈ closure.params.zip args, R.Data s b.2 :=
    fun b hb => hargs b.2 (List.of_mem_zip hb).2
  split
  · refine Keeps.bind (Q := fun t bs => ∀ b ∈ bs, R.Data t b.2)
      (.except hs fun bs hbs => bindAll_data (by simp) hzip hbs) fun bs t ht hst hbs => ?_
    have hchild : ∀ {u bs}, R.Holds u → (∀ b ∈ bs, R.Data u b.2) →
        R.Keeps (liftM (Build.child closure.env bs)) u fun _ => R.Scope :=
      fun hu hbs => .lift (R.child _ hu henv hbs).1 (R.child _ hu henv hbs).2
    cases closure.rest with
    | none => exact hchild ht hbs
    | some x =>
      refine (keeps_list ht fun v hv => R.data_leads hst (hargs v (List.mem_of_mem_drop hv))).bind
        fun extra u hu htu hextra => ?_
      have hbs' : ∀ b ∈ bs, R.Data u b.2 := fun b hb => R.data_leads htu (hbs b hb)
      exact Keeps.bind (Q := fun t bs => ∀ b ∈ bs, R.Data t b.2)
        (.except hu fun bs h => addBinding_data hbs' hextra h) fun bs w hw _ hbs => hchild hw hbs
  · exact .throw hs

theorem keeps_apply (hglobal : R.Scope c.global) (hf : R.Data s f) (hargs : ∀ v ∈ args, R.Data s v)
    (hexpandable : f = .primitive (.control .eval) → ∀ form ∈ args.head?, R.Expandable s form) :
    R.Keeps (apply c f args k) s (R.Lands s k) := by
  unfold Machine.apply
  split
  · split
    · split
      · exact (keeps_routine hs _ hargs).bind fun _ _ ht _ hv => keeps_giveValue ht hv
      · exact keeps_control hs hglobal _ hargs fun h => hexpandable (by rw [h])
    · exact keeps_miscounted hs _ _ _
  · split
    · exact .pure hs (lands ⟨⟨hf, unspecified⟩, trivial⟩)
    · exact .pure hs (lands ⟨⟨hf, hargs _ (by simp)⟩, trivial⟩)
    · exact keeps_miscounted hs _ _ _
  · rename_i a
    refine .inspect_bind ((keeps_bind hs (R.scope a hs) hargs).bind fun _ _ ht hst henv => ?_)
    exact keeps_sequence ht henv (forms_leads hst (R.body a hs hf))
  · exact .throw hs

theorem keeps_templateForm {keyword : QuasiKeyword} {operand : Value} (henv : R.Scope env)
    (h : R.Form (.within keyword level) s operand) :
    R.Keeps (templateForm keyword operand env level k) s (R.Lands o k) := by
  unfold templateForm
  cases keyword with
  | quasiquote => exact .pure hs (lands_push ⟨h, henv⟩ ⟨trivial, trivial⟩ rfl)
  | unquote =>
    by_cases hlevel : level = 1
    · simp only [Role.within, hlevel, reduceCtorEq, if_true, if_false] at h ⊢
      exact .pure hs (lands ⟨h, henv⟩)
    · simp only [Role.within, hlevel, reduceCtorEq, if_false] at h ⊢
      exact .pure hs (lands_push ⟨h, henv⟩ ⟨trivial, trivial⟩ rfl)
  | unquoteSplicing =>
    by_cases hlevel : level = 1
    · simp only [hlevel, if_true]
      exact .throw hs
    · simp only [Role.within, hlevel, reduceCtorEq, if_false] at h ⊢
      exact .pure hs (lands_push ⟨h, henv⟩ ⟨trivial, trivial⟩ rfl)

theorem splice?_code {operand : Value} (hv : R.Form (.template 1) s v)
    (h : splice? s v = some operand) : R.Form .code s operand := by
  unfold splice? at h
  split at h
  · rename_i hform
    cases h
    obtain ⟨a, rfl⟩ := Store.quasiForm?_pair hform
    exact R.template_operand hs hv hform
  · cases h

theorem keeps_template (henv : R.Scope env) (hv : R.Form (.template level) s v)
    (hlistable : ∀ a, v = .vector a → R.Listable s a) :
    R.Keeps (template v env level k) s (R.Lands o k) := by
  cases v with
  | pair a =>
    refine .inspect_bind ?_
    cases hform : s.quasiForm? (.pair a) with
    | some form =>
      obtain ⟨keyword, operand⟩ := form
      exact keeps_templateForm hs henv (R.template_operand hs hv hform)
    | none =>
      obtain ⟨hcar, hcdr⟩ := R.template_slots hs hv hform
      refine .inspect_bind ?_
      dsimp only
      split
      · rename_i hlevel
        refine .inspect_bind ?_
        cases hsplice : splice? s (s.pairAt a).car with
        | some operand =>
          exact .pure hs (lands_push ⟨splice?_code hs (hlevel ▸ hcar) hsplice, henv⟩ ⟨hcdr, henv⟩
            rfl)
        | none => exact .pure hs (lands_push ⟨hcar, henv⟩ ⟨hcdr, henv⟩ rfl)
      · exact .pure hs (lands_push ⟨hcar, henv⟩ ⟨hcdr, henv⟩ rfl)
  | vector a =>
    obtain ⟨hlist, hform⟩ := R.template_list hs hv (hlistable a rfl)
    refine .inspect_bind (Keeps.bind (Q := R.Form (.template level)) (.lift hlist hform) ?_)
    exact fun _ _ ht _ hform => .pure ht (lands_push ⟨hform, henv⟩ ⟨trivial, trivial⟩ rfl)
  | _ => exact keeps_giveValue hs (R.template_atom hv (by simp) (by simp))

theorem keeps_resume {waiting : Pending} (hv : R.Data s v) (hw : waiting.Kept R s)
    (hsettleable : ∀ a thunk, waiting = .forcing a → s.promiseAt a = .delayed thunk →
      R.Settleable s a) :
    R.Keeps (resume c v waiting k) s (R.Lands o k) := by
  cases waiting with
  | nested | call | capture => exact keeps_giveValue hs hv
  | operator operands env =>
    refine .inspect_bind ?_
    cases hlist : s.properList? operands with
    | some forms => exact keeps_arguments hs hw.scope hv (by simp) (R.operands hs hw.all hlist)
    | none => exact .throw hs
  | operands f done more env =>
    exact keeps_arguments hs hw.scope hw.all.1 (List.forall_mem_cons.mpr ⟨hv, hw.all.2.1⟩)
      hw.all.2.2
  | branch consequent alternative env =>
    unfold resume
    dsimp only
    split
    · exact .pure hs (lands ⟨hw.all.1, hw.scope⟩)
    · cases alternative with
      | some form => exact .pure hs (lands ⟨hw.all.2 form rfl, hw.scope⟩)
      | none => exact keeps_giveValue hs unspecified
  | definition x env => exact keeps_bindDefinition hs hw.scope.1 hv
  | assignment x env =>
    exact (keeps_assign hs hw.scope.1 hv).bind fun _ _ ht _ _ => keeps_giveValue ht unspecified
  | body => exact keeps_sequence hs hw.scope hw.all
  | conjunction =>
    unfold resume
    dsimp only
    split
    · exact keeps_conjunction hs hw.scope hw.all
    · exact keeps_giveValue hs hv
  | disjunction =>
    unfold resume
    dsimp only
    split
    · exact keeps_giveValue hs hv
    · exact keeps_disjunction hs hw.scope hw.all
  | mapping f columns done =>
    exact keeps_map hs hw.all.1 hw.all.2.1 (List.forall_mem_cons.mpr ⟨hv, hw.all.2.2⟩)
  | iteration f columns => exact keeps_forEach hs hw.all.1 hw.all.2
  | forcing a => exact keeps_settle hs a hv fun thunk => hsettleable a thunk rfl
  | quasiForm keyword =>
    exact (keeps_list hs (by simpa using ⟨R.name _, hv⟩)).bind fun _ _ ht _ hw =>
      keeps_giveValue ht hw
  | quasiSplice rest env level =>
    refine .inspect_bind ?_
    cases hlist : s.properList? v with
    | some items =>
      exact .pure hs (lands_push ⟨hw.all, hw.scope⟩ ⟨properList hs hv hlist, trivial⟩ rfl)
    | none => exact .throw hs
  | quasiAppend items =>
    exact (keeps_listWithTail hs hw.all hv).bind fun _ _ ht _ hw => keeps_giveValue ht hw
  | quasiRest => exact .pure hs (lands_push ⟨hw.all, hw.scope⟩ ⟨hv, trivial⟩ rfl)
  | quasiCons => exact (keeps_cons hs hw.all hv).bind fun _ _ ht _ hw => keeps_giveValue ht hw
  | quasiVector =>
    refine .inspect_bind ((keeps_vector hs fun w hw => ?_).bind fun _ _ ht _ hw =>
      keeps_giveValue ht hw)
    cases hlist : s.properList? v with
    | some items =>
      rw [hlist] at hw
      exact properList hs hv hlist w (by simpa using hw)
    | none => simp [hlist] at hw

end Moves

variable (R) in
structure Allows (m : Machine) : Prop where
  settleable : ∀ {a v}, m.Settles a v → R.Settleable m.store a
  expandable : ∀ {form more}, m.task = .apply (.primitive (.control .eval)) (form :: more) →
    R.Expandable m.store form
  listable : ∀ {a env level}, m.task = .template (.vector a) env level → R.Listable m.store a

variable (R) in
structure Steps (m m' : Machine) : Prop where
  kept : m'.Kept R
  leads : R.Leads m.store m'.store
  stack : ∃ new rest, m'.stack = new ++ rest ∧ rest <:+ m.stack ∧
    (captures new = [] ∨ captures new = [m.store.exits + 1])

theorem stays {m : Machine} {task : Task} {d : Nat} {rest : Stack} (hm : m.Kept R)
    (htask : task.Kept R m.store) (hrest : rest <:+ m.stack) :
    R.Steps m ⟨task, rest, d, m.store⟩ where
  kept := ⟨hm.store, htask, fun w hw => hm.stack w (hrest.subset hw)⟩
  leads := R.refl _
  stack := ⟨[], rest, rfl, hrest, .inl rfl⟩

theorem performs {m : Machine} {move : Move} {rest : Stack} {d : Nat} (hm : m.Kept R)
    (hrest : rest <:+ m.stack) (h : R.Keeps move m.store (R.Lands m.store rest)) :
    R.Steps m (perform move rest d m.store) := by
  have hstack {t : Store} (hst : R.Leads m.store t) : ∀ w ∈ rest, w.Kept R t :=
    fun w hw => (hm.stack w (hrest.subset hw)).leads hst
  unfold perform
  cases hmove : move m.store with
  | ok next t =>
    obtain ⟨⟨ht, hst⟩, htask, new, hnew, hkept, hcaptures⟩ := h.of_ok hmove
    refine ⟨⟨ht, htask, fun w hw => ?_⟩, hst, new, rest, hnew, hrest, hcaptures⟩
    have hw' : w ∈ new ++ rest := hnew ▸ hw
    rcases List.mem_append.mp hw' with hw | hw
    · exact hkept w hw
    · exact hstack hst w hw
  | error e t =>
    obtain ⟨ht, hst⟩ := h.of_error hmove
    exact ⟨⟨ht, ⟨trivial, trivial⟩, hstack hst⟩, hst, [], rest, rfl, hrest, .inl rfl⟩

theorem nests {m : Machine} {form : Value} {rest : Stack} {d : Nat} (hm : m.Kept R)
    (hrest : rest <:+ m.stack) (henv : R.Scope env) (hform : R.Form .code m.store form) :
    R.Steps m (nest c form env rest d m.store) := by
  have hnested : R.Steps m (if c.maxDepth ≤ d then
      ⟨.error (.eval (.depthLimit c.maxDepth)), rest, d, m.store⟩
      else ⟨.tail form env, .nested :: rest, d + 1, m.store⟩) := by
    split
    · exact stays hm ⟨trivial, trivial⟩ hrest
    · refine ⟨⟨hm.store, ⟨hform, henv⟩, fun w hw => ?_⟩, R.refl _, [.nested], rest, rfl, hrest,
        .inl rfl⟩
      rcases List.mem_cons.mp hw with rfl | hw
      · exact ⟨trivial, trivial⟩
      · exact hm.stack w (hrest.subset hw)
  have hevaluate : R.Steps m (perform (evaluate c form env rest) rest d m.store) :=
    performs hm hrest (keeps_evaluate hm.store henv hform)
  cases form with
  | pair | null => exact hnested
  | _ => exact hevaluate

theorem step {m : Machine} (hglobal : R.Scope c.global) (hm : m.Kept R) (hallows : R.Allows m) :
    R.Steps m (m.step c) := by
  obtain ⟨task, k, d, s⟩ := m
  have htask := hm.task
  have hall {k : Stack} : k <:+ k := List.suffix_rfl
  have hpop {waiting : Pending} {k : Stack} : k <:+ waiting :: k := List.suffix_cons _ _
  cases task with
  | eval form env => exact nests hm hall htask.scope htask.all
  | tail form env =>
    have hevaluate : R.Steps ⟨.tail form env, k, d, s⟩ (perform (evaluate c form env k) k d s) :=
      performs hm hall (keeps_evaluate hm.store htask.scope htask.all)
    cases k with
    | nil => exact hevaluate
    | cons waiting k =>
      cases waiting with
      -- A call that waits is left before its last form is evaluated.
      | call => exact nests hm hpop htask.scope htask.all
      | _ => exact hevaluate
  | apply f args =>
    refine performs hm hall (keeps_apply hm.store hglobal htask.all.1 htask.all.2 ?_)
    rintro rfl form hform
    cases args with
    | nil => cases hform
    | cons form' more =>
      cases hform
      exact hallows.expandable rfl
  | template v env level =>
    refine performs hm hall (keeps_template hm.store htask.scope htask.all ?_)
    rintro a rfl
    exact hallows.listable rfl
  | value v =>
    match k with
    | [] => exact stays hm htask hall
    | waiting :: k =>
      refine performs hm hpop (keeps_resume hm.store htask.all (hm.stack waiting (by simp)) ?_)
      rintro a thunk rfl hdelayed
      exact hallows.settleable ⟨rfl, ⟨k, rfl⟩, thunk, hdelayed⟩
  | escape id v =>
    match k with
    | [] => exact stays hm htask hall
    | waiting :: k =>
      cases waiting with
      | capture target =>
        simp only [Machine.step]
        split
        · exact stays hm ⟨htask.all.2, trivial⟩ hpop
        · exact stays hm htask hpop
      | _ => exact stays hm htask hpop
  | error e =>
    match k with
    | [] => exact stays hm htask hall
    | waiting :: k => exact stays hm ⟨trivial, trivial⟩ hpop

end Regimen

end HygienicScheme
