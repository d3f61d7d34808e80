import HygienicScheme.Machine.Run
import HygienicScheme.Proofs.Discipline.Primitives

/-!
# Quiet moves

Most moves touch neither a frame nor a counter of expansion: they build and change cells, write
text and hand out exits. What they leave to wait may wait there, which for a definition means that
its name may be defined.
-/
namespace HygienicScheme

structure Store.Quiet (s t : Store) : Prop where
  frames_eq : t.frames = s.frames
  phase_eq : t.phase = s.phase
  uses_eq : t.uses = s.uses

namespace Store.Quiet

variable {s t u : Store}

theorem refl (s : Store) : s.Quiet s := ⟨rfl, rfl, rfl⟩

theorem trans (h : s.Quiet t) (k : t.Quiet u) : s.Quiet u :=
  ⟨k.frames_eq.trans h.frames_eq, k.phase_eq.trans h.phase_eq, k.uses_eq.trans h.uses_eq⟩

theorem frameAt_eq (h : s.Quiet t) (f : Address) : t.frameAt f = s.frameAt f := by
  rw [frameAt, frameAt, h.frames_eq]

end Store.Quiet

def quieting : PrimitiveDiscipline where
  Holds _ := True
  Data _ _ := True
  Leads := Store.Quiet
  refl := .refl
  trans := .trans
  data_leads _ _ := trivial
  constant _ _ _ _ := trivial
  name _ := trivial
  slot _ _ _ := trivial
  cons _ _ _ := ⟨⟨trivial, rfl, rfl, rfl⟩, trivial⟩
  vector _ _ := ⟨⟨trivial, rfl, rfl, rfl⟩, trivial⟩
  promise _ _ := ⟨⟨trivial, rfl, rfl, rfl⟩, trivial⟩
  setPair _ _ _ _ := ⟨trivial, rfl, rfl, rfl⟩
  setVector _ _ _ := ⟨trivial, rfl, rfl, rfl⟩
  string _ _ := ⟨trivial, rfl, rfl, rfl⟩
  emit _ _ := ⟨trivial, rfl, rfl, rfl⟩

def Pending.Definable : Pending → Prop
  | .definition x _ => Machine.checkDefinable x = .ok ()
  | _ => True

namespace Machine

open Discipline BuildingDiscipline PrimitiveDiscipline

variable {c : Context} {s t : Store} {k : Stack} {env : Environment} {v f : Value}
  {columns : List (List Value)} {α β : Type}

abbrev Calm (x : Action α) (s : Store) (Q : Store → α → Prop) : Prop := quieting.Keeps x s Q

def Pushes (k : Stack) (_ : Store) (next : Task × Stack) : Prop :=
  ∃ new, next.2 = new ++ k ∧ ∀ waiting ∈ new, waiting.Definable

theorem Pushes.stay (task : Task) : Pushes k s (task, k) := ⟨[], rfl, by simp⟩

theorem Pushes.push (task : Task) {waiting : Pending} (h : waiting.Definable) :
    Pushes k s (task, waiting :: k) := ⟨[waiting], rfl, by simpa using h⟩

theorem Pushes.pushCall (task : Task) {waiting : Pending} (h : waiting.Definable) :
    Pushes k s (task, .call :: waiting :: k) :=
  ⟨[.call, waiting], rfl, by simpa [Pending.Definable] using h⟩

theorem calm_pure {task : Task} : Calm (pure (task, k)) s (Pushes k) := .pure trivial (.stay task)

theorem calm_push {task : Task} {waiting : Pending} (h : waiting.Definable) :
    Calm (pure (task, waiting :: k)) s (Pushes k) := .pure trivial (.push task h)

theorem calm_throw {Q : Store → α → Prop} (e : Error) : Calm (throw e : Action α) s Q :=
  .throw trivial

theorem calm_bind {x : Action α} {f : α → Action β} {R : Store → β → Prop}
    (hx : Calm x s Anything) (hf : ∀ a t, Calm (f a) t R) : Calm (x >>= f) s R :=
  hx.bind fun a t _ _ _ => hf a t

theorem calm_giveValue (v : Value) : Calm (giveValue v k) s (Pushes k) := calm_pure

theorem calm_complain {Q : Store → α → Prop} (v : Value) (complaint : String → Error) :
    Calm (Action.writeText v >>= fun text => (throw (complaint text) : Action α)) s Q :=
  calm_throw _

theorem calm_giving {x : Action Value} (h : Calm x s Anything) :
    Calm (x >>= fun v => giveValue v k) s (Pushes k) := calm_bind h fun v _ => calm_giveValue v

theorem anything {x : Action α} {Q : Store → α → Prop} (h : Calm x s Q) : Calm x s Anything :=
  ⟨h.1, fun _ _ _ => trivial⟩

section Forms

theorem calm_sequence (forms : List Value) : Calm (sequence forms env k) s (Pushes k) := by
  rcases forms with _ | ⟨form, _ | ⟨next, more⟩⟩
  · exact calm_pure
  · exact calm_pure
  · exact calm_push trivial

theorem calm_conjunction (forms : List Value) : Calm (conjunction forms env k) s (Pushes k) := by
  rcases forms with _ | ⟨form, _ | ⟨next, more⟩⟩
  · exact calm_pure
  · exact calm_pure
  · exact calm_push trivial

theorem calm_disjunction (forms : List Value) : Calm (disjunction forms env k) s (Pushes k) := by
  rcases forms with _ | ⟨form, _ | ⟨next, more⟩⟩
  · exact calm_pure
  · exact calm_pure
  · exact calm_push trivial

theorem calm_arguments (done more : List Value) :
    Calm (arguments f done more env k) s (Pushes k) := by
  cases more with
  | nil => exact calm_pure
  | cons form more => exact calm_push trivial

theorem calm_make (formals : Value) (body : List Value) (name : Option String) :
    Calm (Procedure.make formals body env name) s Anything := by
  unfold Procedure.make
  split
  · exact calm_throw _
  · refine .inspect_bind (calm_bind (.except trivial fun _ _ => trivial) fun parsed t => ?_)
    exact .lift ⟨trivial, rfl, rfl, rfl⟩ trivial

def defined? (s : Store) : List Value → Option (Symbol × Value × List Value)
  | [.symbol x, form] => (lambdaParts? s form).map fun parts => (x, parts.1, parts.2)
  | .pair a :: body =>
    match (s.pairAt a).car with
    | .symbol x => some (x, (s.pairAt a).cdr, body)
    | _ => none
  | _ => none

theorem define_made {operands body : List Value} {x : Symbol} {formals : Value}
    (h : defined? s operands = some (x, formals, body)) :
    define c operands env k s = (do
      checkDefinable x
      bindDefinition c x (← Procedure.make formals body env (some x.name)) env k : Move) s := by
  unfold defined? at h
  split at h
  · rename_i y form
    obtain ⟨parts, hparts, hx⟩ := Option.map_eq_some_iff.mp h
    cases hx
    unfold define
    dsimp only
    cases hcheck : checkDefinable x with
    | error e => rw [Action.error_bind, Action.error_bind]
    | ok u =>
      rw [Action.ok_bind, Action.ok_bind, Action.inspect_bind, hparts]
  · rename_i a body
    split at h
    · rename_i y hcar
      cases h
      unfold define
      dsimp only
      rw [Action.inspect_bind]
      simp only [hcar]
    · cases h
  · cases h

theorem calm_define {operands : List Value} (h : defined? s operands = none) :
    Calm (define c operands env k) s (Pushes k) := by
  unfold define
  split
  · exact calm_throw _
  · rename_i x rest
    split
    · rename_i form
      cases hcheck : checkDefinable x with
      | error e => exact calm_throw e
      | ok u =>
        cases u
        have hparts : lambdaParts? s form = none := by simpa [defined?] using h
        refine .of_eq (Action.ok_bind _ _ _) (.inspect_bind ?_)
        rw [hparts]
        exact calm_push hcheck
    · exact calm_throw _
  · rename_i a body
    refine .inspect_bind ?_
    split
    · rename_i x hcar
      simp [defined?, hcar] at h
    · exact calm_complain _ _
  · exact calm_complain _ _

theorem calm_special {form : SpecialForm} {operands : Value}
    (h : form = .define → ∀ forms, s.properList? operands = some forms →
      defined? s forms = none) :
    Calm (special c form operands env k) s (Pushes k) := by
  refine .inspect_bind ?_
  cases hlist : s.properList? operands with
  | none => exact calm_throw _
  | some forms =>
    dsimp only
    split
    · exact calm_pure
    · exact calm_throw _
    · exact calm_pure
    · exact calm_throw _
    · exact calm_throw _
    · exact calm_giving (calm_make _ _ _)
    · exact calm_throw _
    · exact calm_push trivial
    · exact calm_push trivial
    · exact calm_throw _
    · exact calm_define (h rfl forms hlist)
    · exact calm_push trivial
    · exact calm_complain _ _
    · exact calm_throw _
    · exact calm_sequence _
    · exact calm_conjunction _
    · exact calm_disjunction _
    · exact calm_pure
    · exact calm_throw _

theorem calm_lookup (x : Symbol) : Calm (Action.lookup env x) s Anything := by
  refine .inspect_bind ?_
  cases s.lookup? env x with
  | some v => exact .pure trivial trivial
  | none => exact calm_throw _

end Forms

section Applications

theorem calm_map (columns : List (List Value)) (done : List Value) :
    Calm (map f columns done k) s (Pushes k) := by
  unfold Machine.map
  split
  · exact .pure trivial (.pushCall _ trivial)
  · exact calm_giving (anything (keeps_list trivial fun _ _ => trivial))

theorem calm_forEach (columns : List (List Value)) : Calm (forEach f columns k) s (Pushes k) := by
  unfold forEach
  split
  · exact .pure trivial (.pushCall _ trivial)
  · exact calm_pure

theorem calm_list (procedure : String) (v : Value) :
    Calm (Argument.list procedure v) s Anything :=
  anything (keeps_listArgument trivial procedure (v := v) trivial)

theorem calm_columns (procedure : String) (lists : List Value) :
    Calm (lists.mapM (Argument.list procedure)) s Anything :=
  anything (Keeps.mapM (R := Anything) trivial (fun _ _ => trivial) fun v _ t _ _ =>
    calm_list (s := t) procedure v)

theorem calm_force (a : Address) : Calm (force a k) s (Pushes k) := by
  refine .inspect_bind ?_
  split
  · exact calm_pure
  · exact .pure trivial (.pushCall _ trivial)

theorem calm_settle (a : Address) (v : Value) : Calm (settle a v k) s (Pushes k) := by
  refine .inspect_bind ?_
  split
  · exact calm_pure
  · exact calm_bind (.change ⟨trivial, rfl, rfl, rfl⟩ trivial) fun _ _ => calm_pure

theorem calm_capture : Calm (capture f k) s (Pushes k) :=
  calm_bind ⟨⟨trivial, rfl, rfl, rfl⟩, fun _ _ _ => trivial⟩ fun _ _ =>
    .pure trivial (.pushCall _ trivial)

theorem calm_output (procedure : String) (target : List Value) (text : Store → String) :
    Calm (do
      checkOutput procedure target
      emit (← Action.inspect text)
      giveValue .unspecified k) s (Pushes k) := by
  have hcheck : Calm (checkOutput procedure target) s Anything := by
    unfold checkOutput
    split
    · exact .pure trivial trivial
    · exact .pure trivial trivial
    · exact calm_throw _
  refine calm_bind hcheck fun _ t => .inspect_bind ?_
  exact calm_bind (.change ⟨trivial, rfl, rfl, rfl⟩ trivial) fun _ _ => calm_pure

theorem calm_control {op : Control} {args : List Value} (h : op = .eval → args = []) :
    Calm (Machine.control c op args k) s (Pushes k) := by
  unfold Machine.control
  split
  · rename_i f more
    cases more.getLast? with
    | none => exact calm_pure
    | some last => exact calm_bind (calm_list _ _) fun _ _ => calm_pure
  · exact calm_bind (calm_columns _ _) fun _ _ => calm_map _ _
  · exact calm_bind (calm_columns _ _) fun _ _ => calm_forEach _
  · exact calm_capture
  · exact calm_capture
  · cases h rfl
  · exact calm_force _
  · exact calm_pure
  · exact calm_output "display" _ _
  · exact calm_output "write" _ _
  · exact calm_output "newline" _ fun _ => "\n"
  · exact calm_pure
  · exact calm_throw _

end Applications

section Templates

theorem calm_templateForm (keyword : QuasiKeyword) (operand : Value) (level : Nat) :
    Calm (templateForm keyword operand env level k) s (Pushes k) := by
  unfold templateForm
  cases keyword with
  | quasiquote => exact calm_push trivial
  | unquote =>
    dsimp only
    split
    · exact calm_pure
    · exact calm_push trivial
  | unquoteSplicing =>
    dsimp only
    split
    · exact calm_throw _
    · exact calm_push trivial

theorem calm_spliced {item rest : Value} {level : Nat} (splice : Option Value) :
    Calm (match splice with
      | some operand => pure (.eval operand env, .quasiSplice rest env level :: k)
      | none => pure (.template item env level, .quasiRest rest env level :: k) : Move)
      s (Pushes k) := by
  cases splice with
  | some operand => exact calm_push trivial
  | none => exact calm_push trivial

theorem calm_template (v : Value) (level : Nat) :
    Calm (template v env level k) s (Pushes k) := by
  cases v with
  | pair a =>
    refine .inspect_bind ?_
    split
    · exact calm_templateForm _ _ _
    · refine .inspect_bind ?_
      dsimp only
      split
      · exact .inspect_bind (calm_spliced _)
      · exact calm_spliced none
  | vector a =>
    refine .inspect_bind (calm_bind (anything (keeps_list trivial fun _ _ => trivial)) ?_)
    exact fun _ _ => calm_push trivial
  | _ => exact calm_pure

end Templates

/-- Values are handed on quietly, unless they are bound. -/
theorem calm_resume {waiting : Pending} (hdefine : ∀ x env, waiting ≠ .definition x env)
    (hassign : ∀ x env, waiting ≠ .assignment x env) :
    Calm (resume c v waiting k) s (Pushes k) := by
  cases waiting with
  | nested | call | capture => exact calm_pure
  | operator operands env =>
    refine .inspect_bind ?_
    split
    · exact calm_arguments _ _
    · exact calm_complain _ _
  | operands f done more env => exact calm_arguments _ _
  | branch consequent alternative env =>
    unfold resume
    dsimp only
    split
    · exact calm_pure
    · split
      · exact calm_pure
      · exact calm_pure
  | definition x env => exact absurd rfl (hdefine x env)
  | assignment x env => exact absurd rfl (hassign x env)
  | body more env => exact calm_sequence _
  | conjunction more env =>
    unfold resume
    dsimp only
    split
    · exact calm_conjunction _
    · exact calm_pure
  | disjunction more env =>
    unfold resume
    dsimp only
    split
    · exact calm_pure
    · exact calm_disjunction _
  | mapping f columns done => exact calm_map _ _
  | iteration f columns => exact calm_forEach _
  | forcing a => exact calm_settle a v
  | quasiForm keyword => exact calm_giving (anything (keeps_list trivial fun _ _ => trivial))
  | quasiSplice rest env level =>
    refine .inspect_bind ?_
    split
    · exact calm_push trivial
    · exact calm_complain _ _
  | quasiAppend items =>
    exact calm_giving (anything (keeps_listWithTail trivial (fun _ _ => trivial) trivial))
  | quasiRest rest env level => exact calm_push trivial
  | quasiCons car => exact calm_giving (anything (keeps_cons trivial trivial trivial))
  | quasiVector =>
    exact .inspect_bind (calm_giving (anything (keeps_vector trivial fun _ _ => trivial)))

end Machine

end HygienicScheme
