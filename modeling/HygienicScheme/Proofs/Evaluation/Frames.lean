import HygienicScheme.Proofs.Depth.Limits
import HygienicScheme.Proofs.Discipline.Sessions
import HygienicScheme.Proofs.Evaluation.Effects
import HygienicScheme.Proofs.Store.Bindings

/-!
# Frames only grow

No binding leaves its frame, however a session goes on. It gets another value only by an assignment
through an identifier that resolves to it, or by a definition at the top level of a session in which
that may replace another. Everywhere else the definition of a name that the frame has fails, and
what a program may not define is refused before its value is looked at.
-/
namespace HygienicScheme

namespace Machine

variable {c : Context} {T : Terms} {m m' : Machine} {f : Address} {x : Symbol} {v : Value}
  {env : Environment} {s : Store} {operands : List Value}

inductive Changes (c : Context) (m : Machine) (f : Address) (x : Symbol) (v : Value) : Prop
  | assign (h : m.Assigns f x v)
  | redefine {env : Environment} {s : Store} (h : m.Defines x v env s) (hframe : env.frame = f)
      (hrelaxed : relaxed c env = true)

def Binds (c : Context) (m m' : Machine) (f : Address) (x : Symbol) (v : Value) : Prop :=
  ∃ w, m'.store.bound? f x = some w ∧ (w = v ∨ m' = m.step c ∧ m.Changes c f x w)

theorem Binds.of_keeps (hv : m.store.bound? f x = some v)
    (h : m.store.KeepsBindings m'.store) : Binds c m m' f x v :=
  ⟨v, (h f (Store.lt_of_bound hv) x).trans hv, .inl rfl⟩

theorem binds_expanded {form : Value} (hv : m.store.bound? f x = some v)
    (h : m'.store = Action.after (Expansion.expandToplevel c.global form m.store)) :
    Binds c m m' f x v := by
  refine .of_keeps hv ?_
  rw [h]
  exact (Expansion.expanding_expandToplevel c.global form m.store).keepsBindings

theorem Defines.binds {w : Value} {y : Symbol} (h : m.Defines y w env s)
    (hv : m.store.bound? f x = some v) : Binds c m (m.step c) f x v := by
  obtain ⟨k, d, hstep⟩ := h.step c
  have hs : s.bound? f x = some v := (h.quiet.bound?_eq f x).trans hv
  have hstore : (m.step c).store = Action.after (bindDefinition c y w env k s) := by
    rw [hstep, perform_store]
  rw [bindDefinition_outcome] at hstore
  split at hstore
  · exact ⟨v, (congrArg (·.bound? f x) hstore).trans hs, .inl rfl⟩
  · rename_i hnew
    have hbound : (m.step c).store.bound? f x = _ :=
      (congrArg (·.bound? f x) hstore).trans Store.bound?_bind
    split at hbound
    · rename_i hslot
      obtain ⟨-, rfl, rfl⟩ := hslot
      refine ⟨w, hbound, .inr ⟨rfl, .redefine h rfl ?_⟩⟩
      rw [Store.binds_eq, hs] at hnew
      simpa using hnew
    · exact ⟨v, hbound.trans hs, .inl rfl⟩

theorem binds_step (hv : m.store.bound? f x = some v) : Binds c m (m.step c) f x v := by
  cases (step_effect c m).1 with
  | quiet h => exact .of_keeps hv h.keepsBindings
  | @call a args bindings s htask hs h =>
    have hframe : f < s.frames.size := by
      rw [hs.frames_eq]
      exact Store.lt_of_bound hv
    refine ⟨v, ?_, .inl rfl⟩
    rw [h.bound?_eq, Store.keepsBindings_push _ f hframe, hs.bound?_eq, hv]
  | @assign g y w hassigns h =>
    have hbound : (m.step c).store.bound? f x = _ :=
      (congrArg (·.bound? f x) h).trans Store.bound?_bind
    split at hbound
    · rename_i hslot
      obtain ⟨-, rfl, rfl⟩ := hslot
      exact ⟨w, hbound, .inr ⟨rfl, .assign hassigns⟩⟩
    · exact ⟨v, hbound.trans hv, .inl rfl⟩
  | define h => exact h.binds hv
  | expand _ h => exact binds_expanded hv h

theorem binds_hosted {w : Value} {y : Symbol} (hv : m.store.bound? f x = some v) :
    Binds c m (idle (Action.after (Action.define env y w m.store))) f x v := by
  rw [define_outcome]
  split
  · exact ⟨v, hv, .inl rfl⟩
  · rename_i hnew
    refine ⟨v, ?_, .inl rfl⟩
    refine Store.bound?_bind.trans ?_
    rw [if_neg, hv]
    rintro ⟨-, rfl, rfl⟩
    rw [Store.binds_eq, hv] at hnew
    exact hnew rfl

theorem binds_next (hv : m.store.bound? f x = some v) (h : Next c T m m') :
    Binds c m m' f x v := by
  cases h with
  | step _ => exact binds_step hv
  | @place d _ => exact .of_keeps hv (d.quiet_place m.store).keepsBindings
  | form _ h => exact binds_expanded hv (congrArg Action.after h).symm
  | refused _ h => exact binds_expanded hv (congrArg Action.after h).symm
  | raw _ => exact ⟨v, hv, .inl rfl⟩
  | define name _ => exact binds_hosted hv
  | takeOutput => exact ⟨v, hv, .inl rfl⟩

/-- Later the binding has the value that it had, or the one that the last change gave it. -/
theorem binds_session (hv : m.store.bound? f x = some v)
    (h : Relation.ReflTransGen (Next c T) m m') :
    ∃ w, m'.store.bound? f x = some w ∧ (w = v ∨ ∃ m₁, Relation.ReflTransGen (Next c T) m m₁ ∧
      Relation.ReflTransGen (Next c T) (m₁.step c) m' ∧ m₁.Changes c f x w) := by
  induction h with
  | refl => exact ⟨v, hv, .inl rfl⟩
  | @tail m₂ m₃ hbefore hnext ih =>
    obtain ⟨w, hw, hchange⟩ := ih
    obtain ⟨u, hu, rfl | ⟨rfl, hstep⟩⟩ := binds_next hw hnext
    · refine ⟨u, hu, hchange.imp_right ?_⟩
      rintro ⟨m₁, hm₁, hlater, h⟩
      exact ⟨m₁, hm₁, hlater.tail hnext, h⟩
    · exact ⟨u, hu, .inr ⟨m₂, hbefore, .refl, hstep⟩⟩

theorem Defines.duplicate (h : m.Defines x v env s) (hrelaxed : relaxed c env = false)
    (hbound : m.store.bound? env.frame x ≠ none) :
    ∃ k d, m.step c = ⟨.error (.duplicate x.name), k, d, s⟩ := by
  obtain ⟨k, d, hstep⟩ := h.step c
  have hbinds : s.binds env x = true := by
    rw [Store.binds_eq, h.quiet.bound?_eq]
    exact Option.isSome_iff_ne_none.mpr hbound
  refine ⟨k, d, hstep.trans ?_⟩
  unfold perform
  rw [bindDefinition_outcome, if_pos ⟨hrelaxed, hbinds⟩]

theorem define_duplicate (hbound : s.bound? env.frame x ≠ none) :
    Action.define env x v s = .error (.duplicate x.name) s := by
  rw [define_outcome, if_pos]
  rw [Store.binds_eq]
  exact Option.isSome_iff_ne_none.mpr hbound

theorem checkDefinable_ok :
    checkDefinable x = .ok () ↔ ¬(isCoreKeyword x.name = true ∧ x.isStamped = false) := by
  simp [checkDefinable]

section Forms

def named? (s : Store) : List Value → Option Symbol
  | [.symbol x, _] => some x
  | .pair a :: _ =>
    match (s.pairAt a).car with
    | .symbol x => some x
    | _ => none
  | _ => none

theorem named_of_defined {formals : Value} {body : List Value}
    (h : defined? s operands = some (x, formals, body)) : named? s operands = some x := by
  unfold defined? at h
  split at h
  · obtain ⟨parts, -, hparts⟩ := Option.map_eq_some_iff.mp h
    cases hparts
    rfl
  · split at h
    · rename_i hcar
      cases h
      simp only [named?, hcar]
    · cases h
  · cases h

/-- The next step begins to evaluate a `define` form. -/
structure Begins (m : Machine) (x : Symbol) (operands : List Value) (env : Environment) :
    Prop where
  form : ∃ a, m.task = .tail (.pair a) env ∧
    specialForm? (m.store.pairAt a).car = some .define ∧
    m.store.properList? (m.store.pairAt a).cdr = some operands
  stack : m.stack.head? ≠ some .call
  named : named? m.store operands = some x

theorem Begins.step (h : m.Begins x operands env) (c : Context) :
    m.step c = perform (define c operands env m.stack) m.stack m.depth m.store := by
  obtain ⟨task, k, d, s⟩ := m
  obtain ⟨⟨a, rfl, hform, hoperands⟩, hstack, -⟩ := h
  refine (step_tail hstack).trans (perform_congr ?_)
  rw [evaluate_special hform]
  unfold special Action.properList?
  rw [Action.inspect_bind, hoperands]

theorem Begins.refused {e : Error} (h : m.Begins x operands env)
    (hx : checkDefinable x = .error e) : m.step c = ⟨.error e, m.stack, m.depth, m.store⟩ := by
  rw [h.step]
  suffices hdefine : define c operands env m.stack m.store = .error e m.store by
    rw [perform, hdefine]
  have hnamed := h.named
  unfold named? at hnamed
  split at hnamed
  · cases hnamed
    unfold define
    dsimp only
    rw [hx, Action.error_bind]
  · split at hnamed
    · rename_i hcar
      cases hnamed
      unfold define
      dsimp only
      rw [Action.inspect_bind]
      simp only [hcar]
      rw [hx, Action.error_bind]
    · cases hnamed
  · cases hnamed

/-- A name that may be defined waits for the value of the form, unless a procedure is made. -/
theorem Begins.waits (h : m.Begins x operands env) (hx : checkDefinable x = .ok ())
    (hparts : defined? m.store operands = none) : ∃ form, operands = [.symbol x, form] ∧
      m.step c = ⟨.eval form env, .definition x env :: m.stack, m.depth, m.store⟩ := by
  rw [h.step]
  have hnamed := h.named
  unfold named? at hnamed
  split at hnamed
  · rename_i y form
    cases hnamed
    refine ⟨form, rfl, ?_⟩
    have hlambda : lambdaParts? m.store form = none := by simpa [defined?] using hparts
    have hdefine : define c [.symbol x, form] env m.stack m.store =
        .ok (.eval form env, .definition x env :: m.stack) m.store := by
      unfold define
      dsimp only
      rw [hx, Action.ok_bind, Action.inspect_bind, hlambda]
      rfl
    rw [perform, hdefine]
  · split at hnamed
    · rename_i hcar
      simp [defined?, hcar] at hparts
    · cases hnamed
  · cases hnamed

theorem make_error {formals : Value} {body : List Value} {name : Option String} {e : Error}
    {t : Store} (h : Procedure.make formals body env name s = .error e t) : t = s := by
  unfold Procedure.make at h
  split at h
  · cases h
    rfl
  · rw [Action.inspect_bind] at h
    cases hformals : Procedure.formals s formals with
    | error e' =>
      rw [hformals, Action.error_bind] at h
      cases h
      rfl
    | ok parsed =>
      rw [hformals, Action.ok_bind] at h
      cases h

/-- A name that may be defined as a procedure is, unless there is no such procedure. -/
theorem Begins.makes {y : Symbol} {formals : Value} {body : List Value}
    (h : m.Begins x operands env) (hx : checkDefinable x = .ok ())
    (hparts : defined? m.store operands = some (y, formals, body)) :
    (∃ v s, m.Defines x v env s) ∨
      ∃ e, Procedure.make formals body env (some x.name) m.store = .error e m.store ∧
        m.step c = ⟨.error e, m.stack, m.depth, m.store⟩ := by
  obtain rfl : y = x := Option.some_inj.mp ((named_of_defined hparts).symm.trans h.named)
  cases hmake : Procedure.make formals body env (some y.name) m.store with
  | ok v s =>
    obtain ⟨a, htask, hform, hoperands⟩ := h.form
    exact .inl ⟨v, s, .made htask h.stack hform hoperands hparts hx hmake⟩
  | error e s =>
    obtain rfl := make_error hmake
    refine .inr ⟨e, rfl, ?_⟩
    rw [h.step, perform, define_made hparts, hx, Action.ok_bind, Action.bind_error hmake]

inductive Begun (c : Context) (m : Machine) (x : Symbol) (operands : List Value)
    (env : Environment) : Prop
  | refused (hkeyword : isCoreKeyword x.name = true) (huser : x.isStamped = false)
      (hstep : m.step c =
        ⟨.error (.malformed "define" (.keyword x.name)), m.stack, m.depth, m.store⟩)
  | waits {form : Value} (hoperands : operands = [.symbol x, form])
      (hstep : m.step c = ⟨.eval form env, .definition x env :: m.stack, m.depth, m.store⟩)
  | makes {v : Value} {s : Store} (h : m.Defines x v env s)
  | fails {formals : Value} {body : List Value} {e : Error}
      (hmake : Procedure.make formals body env (some x.name) m.store = .error e m.store)
      (hstep : m.step c = ⟨.error e, m.stack, m.depth, m.store⟩)

theorem Begins.begun (h : m.Begins x operands env) (c : Context) : Begun c m x operands env := by
  by_cases hkeyword : isCoreKeyword x.name = true ∧ x.isStamped = false
  · have hx : checkDefinable x = .error (.malformed "define" (.keyword x.name)) := by
      simp [checkDefinable, hkeyword]
    exact .refused hkeyword.1 hkeyword.2 (h.refused hx)
  · have hx : checkDefinable x = .ok () := checkDefinable_ok.mpr hkeyword
    cases hparts : defined? m.store operands with
    | none =>
      obtain ⟨form, hoperands, hstep⟩ := h.waits hx hparts
      exact .waits hoperands hstep
    | some parts =>
      obtain ⟨y, formals, body⟩ := parts
      rcases h.makes hx hparts with ⟨v, s, hdefines⟩ | ⟨e, hmake, hstep⟩
      · exact .makes hdefines
      · exact .fails hmake hstep

end Forms

/-- What frames may rely on in a state of a session, whatever comes next. -/
structure KeepsFrames (c : Context) (T : Terms) (m : Machine) : Prop where
  /-- What comes next removes no binding, and changes one only by an assignment to it or by a
  definition at the top level where this is allowed. -/
  kept : ∀ m' f x v, Next c T m m' → m.store.bound? f x = some v → Binds c m m' f x v
  /-- So it is however the session goes on. -/
  lasting : ∀ m' f x v, Relation.ReflTransGen (Next c T) m m' → m.store.bound? f x = some v →
    ∃ w, m'.store.bound? f x = some w ∧ (w = v ∨ ∃ m₁, Relation.ReflTransGen (Next c T) m m₁ ∧
      Relation.ReflTransGen (Next c T) (m₁.step c) m' ∧ m₁.Changes c f x w)
  /-- The step that defines a name again fails. All that was done for it is that the value was made,
  if it is a procedure. -/
  duplicate : ∀ x v env s, m.Defines x v env s → relaxed c env = false →
    m.store.bound? env.frame x ≠ none →
    (∃ k d, m.step c = ⟨.error (.duplicate x.name), k, d, s⟩) ∧ (s = m.store ∨
      ∃ closure, s = { m.store with closures := m.store.closures.push closure })
  /-- The host cannot define a name again either. -/
  hosted : ∀ name v, m.store.bound? c.global.frame (.user name) ≠ none →
    Action.define c.global (.user name) v m.store = .error (.duplicate name) m.store
  /-- No step defines a core keyword of the user's own. -/
  definable : ∀ x v env s, m.Defines x v env s →
    ¬(isCoreKeyword x.name = true ∧ x.isStamped = false)
  /-- A `define` form is refused, fails to make its procedure, or comes to a step that defines. -/
  begun : ∀ x operands env, m.Begins x operands env → Begun c m x operands env

theorem definable_of_reached {config : Config} {outputName : String}
    (h : Reached config outputName T m) : ∀ waiting ∈ m.stack, waiting.Definable := by
  induction h with
  | refl => simp [idle]
  | @tail m m' _ hnext ih =>
    cases hnext with
    | step _ => exact (step_effect _ m).2.definable ih
    | _ => simp [idle, start]

/-- In every state that a session comes to, frames only grow. -/
theorem frames_of_reached {config : Config} {outputName : String}
    (h : Reached config outputName T m) :
    m.KeepsFrames (Interpreter.bare config outputName).context T where
  kept _ _ _ _ hnext hv := binds_next hv hnext
  lasting _ _ _ _ hsession hv := binds_session hv hsession
  duplicate _ _ _ _ hdefines hrelaxed hbound :=
    ⟨hdefines.duplicate hrelaxed hbound, hdefines.ready⟩
  hosted _ _ hbound := define_duplicate hbound
  definable _ _ _ _ hdefines := checkDefinable_ok.mp (hdefines.definable (definable_of_reached h))
  begun _ _ _ hbegins := hbegins.begun _

def anyTerms : Terms := ⟨fun _ => True, fun _ _ => True, fun _ => True⟩

def placed (d : Datum) : Machine :=
  let i := Interpreter.bare {} "out"
  ⟨.value (d.place i.store).1, [], 0, (d.place i.store).2⟩

theorem reached_placed {d : Datum} (h : T.datum d) : Reached {} "out" T (placed d) :=
  .tail .refl (.place h)

def stepped (d : Datum) (n : Nat) : Machine :=
  let i := Interpreter.bare {} "out"
  (step i.context)^[n] (.start (d.place i.store).1 i.context.global (d.place i.store).2)

theorem reached_steps {d : Datum} (hdatum : T.datum d)
    (hvalue : T.value (placed d).store (d.place (Interpreter.bare {} "out").store).1)
    (hsteps : ∀ m, T.step m) (n : Nat) : Reached {} "out" T (stepped d n) := by
  induction n with
  | zero => exact (reached_placed hdatum).tail (.raw hvalue)
  | succ n ih =>
    rw [stepped, Function.iterate_succ_apply']
    exact ih.tail (.step (hsteps _))

theorem reached_stepped (d : Datum) (n : Nat) : Reached {} "out" anyTerms (stepped d n) :=
  reached_steps trivial trivial (fun _ => trivial) n

def redefining (name : String) : Datum :=
  .list [.list [.name "lambda", .list [.name name], .list [.name "define", .name name, .int 2]],
    .int 1]

/-- Here a parameter is about to be defined again. -/
theorem frames_of_reached_parameter :
    (stepped (redefining "x") 10).KeepsFrames (Interpreter.bare {} "out").context anyTerms ∧
      ((stepped (redefining "x") 10).store.bound? 2 (.user "x")).isSome = true :=
  ⟨frames_of_reached (reached_stepped _ _), by decide +kernel⟩

def definesNumber (m : Machine) (x : Symbol) (n : Int64) (env : Environment) : Bool :=
  match m.task, m.stack with
  | .tail (.pair a) e, [] =>
    e == env && specialForm? (m.store.pairAt a).car == some .define &&
      match m.store.properList? (m.store.pairAt a).cdr with
      | some [.symbol y, .int k] => y == x && k == n
      | _ => false
  | _, _ => false

theorem begins_of_definesNumber {n : Int64} (h : m.definesNumber x n env = true) :
    m.Begins x [.symbol x, .int n] env := by
  unfold definesNumber at h
  split at h
  · rename_i a e htask hstack
    split at h
    · rename_i y k hoperands
      simp only [Bool.and_eq_true, beq_iff_eq] at h
      obtain ⟨⟨rfl, hform⟩, rfl, rfl⟩ := h
      exact ⟨⟨a, htask, hform, hoperands⟩, by simp [hstack], rfl⟩
    · simp at h
  · cases h

/-- A parameter may have the name of a core keyword, and to define it again is another error. -/
theorem keyword_parameter_refused : ¬ ∀ (m : Machine) (x : Symbol) (n : Int64) (env : Environment),
    Reached {} "out" anyTerms m → m.Begins x [.symbol x, .int n] env →
    relaxed (Interpreter.bare {} "out").context env = false →
    m.store.bound? env.frame x ≠ none →
    ∃ j, (m.run (Interpreter.bare {} "out").context j).1 = .error (.duplicate x.name) := by
  intro h
  have hdefines :
      (stepped (redefining "if") 8).definesNumber (.user "if") 2 ⟨2, [1, 0]⟩ = true := by
    decide +kernel
  have hbegins := begins_of_definesNumber hdefines
  have hbound : ((stepped (redefining "if") 8).store.bound? 2 (.user "if")).isSome = true := by
    decide +kernel
  obtain ⟨j, hj⟩ := h _ _ _ _ (reached_stepped _ _) hbegins (by decide +kernel)
    (Option.isSome_iff_ne_none.mp hbound)
  obtain ⟨a, htask, -, -⟩ := hbegins.form
  have hstep := hbegins.refused (c := (Interpreter.bare {} "out").context)
    (e := .malformed "define" (.keyword "if")) (by decide)
  cases j with
  | zero => cases hj
  | succ j =>
    have hrun : (stepped (redefining "if") 8).run (Interpreter.bare {} "out").context (j + 1) =
        ((stepped (redefining "if") 8).step (Interpreter.bare {} "out").context).run
          (Interpreter.bare {} "out").context j := by
      rw [run, outcome?, htask]
    rw [hrun] at hj
    rcases run_error (c := (Interpreter.bare {} "out").context) (congrArg task hstep) j with
      herror | herror
    · cases herror.symm.trans hj
    · cases herror.symm.trans hj

end Machine

end HygienicScheme
