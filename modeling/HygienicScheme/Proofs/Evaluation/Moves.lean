import HygienicScheme.Machine.Run
import HygienicScheme.Proofs.Errors.Expansion
import HygienicScheme.Proofs.Errors.Primitives
import HygienicScheme.Proofs.Errors.Basic

/-!
# What moves do to the stack

No move looks at the stack it is made on. It either fails with an ordinary error or comes to a
task and pushes what waits for its value, the same on every stack, and never the end of a nested
evaluation: those are pushed by `nest` alone. All that the machine does with its depth, with its
limit and with stacks put below others follows from this.
-/
namespace HygienicScheme

namespace Machine

def isNested : Pending → Bool
  | .nested => true
  | _ => false

def nestings (k : Stack) : Nat := k.countP isNested

@[simp] theorem nestings_nil : nestings [] = 0 := rfl

@[simp] theorem nestings_append (above below : Stack) :
    nestings (above ++ below) = nestings above + nestings below := List.countP_append

theorem nestings_cons (waiting : Pending) (k : Stack) :
    nestings (waiting :: k) = nestings k + if isNested waiting then 1 else 0 := List.countP_cons

theorem nestings_nested (k : Stack) : nestings (.nested :: k) = nestings k + 1 := nestings_cons _ k

inductive Makes (move : Stack → Move) (s : Store) : Prop
  | fails {e : Error} {t : Store} (he : e.Ordinary) (h : ∀ k, move k s = .error e t)
  | goes {task : Task} {new : Stack} {t : Store} (htask : ∀ e, task ≠ .error e)
    (hnew : nestings new = 0) (h : ∀ k, move k s = .ok (task, new ++ k) t)

def Uniform (move : Stack → Move) : Prop := ∀ s, Makes move s

namespace Uniform

variable {task : Task} {waiting : Pending} {v : Value} {α : Type}

theorem stay (htask : ∀ e, task ≠ .error e) : Uniform fun k => pure (task, k) :=
  fun _ => .goes htask (List.countP_nil) fun _ => rfl

theorem push (htask : ∀ e, task ≠ .error e) (hw : isNested waiting = false) :
    Uniform fun k => pure (task, waiting :: k) := by
  have hnew : nestings [waiting] = 0 := by
    simp only [nestings_cons, nestings_nil, hw]
    rfl
  exact fun _ => .goes htask hnew fun _ => rfl

theorem pushCall (htask : ∀ e, task ≠ .error e) (hw : isNested waiting = false) :
    Uniform fun k => pure (task, .call :: waiting :: k) := by
  have hnew : nestings [.call, waiting] = 0 := by
    simp only [nestings_cons, nestings_nil, hw]
    rfl
  exact fun _ => .goes htask hnew fun _ => rfl

theorem give (v : Value) : Uniform (giveValue v) := stay nofun

theorem fail {e : Error} (he : e.Ordinary) : Uniform fun _ => throw e :=
  fun s => .fails (t := s) he fun _ => rfl

theorem bind {a : Action α} {move : α → Stack → Move} (ha : a.FailsWith Error.Ordinary)
    (hmove : ∀ x, Uniform (move x)) : Uniform fun k => a >>= fun x => move x k := by
  intro s
  cases hs : a s with
  | ok x t =>
    have hbind : ∀ k, (a >>= fun x => move x k) s = move x k t := by
      intro k
      simp only [Bind.bind, EStateM.bind, hs]
    cases hmove x t with
    | fails he h => exact .fails he fun k => (hbind k).trans (h k)
    | goes htask hnew h => exact .goes htask hnew fun k => (hbind k).trans (h k)
  | error e t =>
    have hbind : ∀ k, (a >>= fun x => move x k) s = .error e t := by
      intro k
      simp only [Bind.bind, EStateM.bind, hs]
    exact .fails (ha s e t hs) hbind

theorem giving {a : Action Value} (ha : a.FailsWith Error.Ordinary) :
    Uniform fun k => a >>= fun v => giveValue v k := bind ha give

theorem either {p : Prop} [Decidable p] {yes no : Stack → Move} (hyes : Uniform yes)
    (hno : Uniform no) : Uniform fun k => if p then yes k else no k := by
  by_cases h : p
  · simpa only [if_pos h] using hyes
  · simpa only [if_neg h] using hno

theorem complain {complaint : String → Error} (v : Value) (h : ∀ text, (complaint text).Ordinary) :
    Uniform fun _ => Action.writeText v >>= fun text => throw (complaint text) :=
  bind (.inspect _) fun text => fail (h text)

section Forms

variable {c : Context} {env : Environment} {f : Value}

theorem sequence (forms : List Value) : Uniform (sequence forms env) := by
  rcases forms with _ | ⟨form, _ | ⟨next, more⟩⟩
  · exact give _
  · exact stay nofun
  · exact push nofun rfl

theorem conjunction (forms : List Value) : Uniform (conjunction forms env) := by
  rcases forms with _ | ⟨form, _ | ⟨next, more⟩⟩
  · exact give _
  · exact stay nofun
  · exact push nofun rfl

theorem disjunction (forms : List Value) : Uniform (disjunction forms env) := by
  rcases forms with _ | ⟨form, _ | ⟨next, more⟩⟩
  · exact give _
  · exact stay nofun
  · exact push nofun rfl

theorem arguments (done more : List Value) : Uniform (arguments f done more env) := by
  cases more with
  | nil => exact stay nofun
  | cons form more => exact push nofun rfl

theorem checkDefinable (x : Symbol) : Throws (Machine.checkDefinable x) Error.Ordinary := by
  unfold Machine.checkDefinable
  split
  · exact .error trivial
  · exact .ok _

theorem bindDefinition (x : Symbol) (v : Value) : Uniform (bindDefinition c x v env) := by
  unfold Machine.bindDefinition
  cases c.redefine && env.frame == c.global.frame with
  | true => exact bind (.change _) fun _ => give _
  | false => exact bind (Ordinary.defineBinding _ _ _) fun _ => give _

theorem bindMade (formals : Value) (body : List Value) (x : Symbol) :
    Uniform fun k => Procedure.make formals body env (some x.name) >>= fun v =>
      Machine.bindDefinition c x v env k :=
  bind (Ordinary.make _ _ _ _) (bindDefinition x)

theorem define (operands : List Value) : Uniform (define c operands env) := by
  cases operands with
  | nil => exact fail trivial
  | cons target rest =>
    cases target with
    | symbol x =>
      rcases rest with _ | ⟨form, _ | ⟨_, _⟩⟩
      · exact fail trivial
      · refine bind (.except (checkDefinable x)) fun _ => bind (.inspect _) fun parts => ?_
        cases parts with
        | some parts => exact bindMade _ _ x
        | none => exact push nofun rfl
      · exact fail trivial
    | pair a =>
      refine bind (.inspect _) fun header => ?_
      cases header.car with
      | symbol x => exact bind (.except (checkDefinable x)) fun _ => bindMade _ _ x
      | _ => exact complain _ fun _ => trivial
    | _ => exact complain _ fun _ => trivial

theorem special (form : SpecialForm) (operands : Value) :
    Uniform (special c form operands env) := by
  refine bind (.inspect _) fun operands => ?_
  cases operands with
  | none => exact fail trivial
  | some operands =>
    cases form with
    | quote =>
      rcases operands with _ | ⟨v, _ | ⟨_, _⟩⟩
      · exact fail trivial
      · exact give v
      · exact fail trivial
    | quasiquote =>
      rcases operands with _ | ⟨v, _ | ⟨_, _⟩⟩
      · exact fail trivial
      · exact stay nofun
      · exact fail trivial
    | unquote => exact fail trivial
    | lambda =>
      cases operands with
      | nil => exact fail trivial
      | cons formals body => exact giving (Ordinary.make _ _ _ _)
    | conditional =>
      rcases operands with _ | ⟨test, _ | ⟨consequent, _ | ⟨alternative, _ | ⟨_, _⟩⟩⟩⟩
      · exact fail trivial
      · exact fail trivial
      · exact push nofun rfl
      · exact push nofun rfl
      · exact fail trivial
    | define => exact define operands
    | assign =>
      rcases operands with _ | ⟨v, _ | ⟨form, _ | ⟨_, _⟩⟩⟩
      · exact fail trivial
      · cases v <;> exact fail trivial
      · cases v with
        | symbol x => exact push nofun rfl
        | _ => exact complain _ fun _ => trivial
      · cases v <;> exact fail trivial
    | sequence => exact sequence operands
    | conjunction => exact conjunction operands
    | disjunction => exact disjunction operands
    | defineSyntax => exact give _
    | letSyntax => exact fail trivial

theorem evaluate (form : Value) : Uniform (evaluate c form env) := by
  cases form with
  | symbol x => exact giving (Ordinary.lookup _ _)
  | pair a =>
    refine bind (.inspect _) fun p => ?_
    cases hform : specialForm? p.car with
    | some form => exact special form _
    | none => exact push nofun rfl
  | null => exact fail trivial
  | _ => exact give _

end Forms

section Applications

variable {c : Context} {f : Value}

theorem map (columns : List (List Value)) (done : List Value) : Uniform (map f columns done) := by
  unfold Machine.map
  cases nextRow? columns with
  | some row => exact pushCall nofun rfl
  | none => exact giving (.lift _)

theorem forEach (columns : List (List Value)) : Uniform (forEach f columns) := by
  unfold Machine.forEach
  cases nextRow? columns with
  | some row => exact pushCall nofun rfl
  | none => exact give _

theorem force (a : Address) : Uniform (force a) := by
  refine bind (.inspect _) fun promise => ?_
  cases promise with
  | forced v => exact give v
  | delayed thunk => exact pushCall nofun rfl

theorem settle (a : Address) (v : Value) : Uniform (settle a v) := by
  refine bind (.inspect _) fun promise => ?_
  cases promise with
  | forced w => exact give w
  | delayed thunk => exact bind (.change _) fun _ => give v

theorem capture : Uniform (capture f) := bind (.modifyGet _) fun _ => pushCall nofun rfl

theorem checkOutput (procedure : String) (target : List Value) :
    (checkOutput procedure target).FailsWith Error.Ordinary := by
  unfold Machine.checkOutput
  split
  · exact .pure _
  · exact .pure _
  · exact Ordinary.reject _ _ _

theorem columns (procedure : String) (lists : List Value) :
    (lists.mapM (Argument.list procedure)).FailsWith Error.Ordinary :=
  .mapM fun v _ => Ordinary.list procedure v

theorem written (procedure : String) (text : Store → String) (target : List Value) :
    Uniform fun k => Machine.checkOutput procedure target >>= fun _ =>
      Action.inspect text >>= fun text => emit text >>= fun _ => giveValue .unspecified k :=
  bind (checkOutput _ _) fun _ => bind (.inspect _) fun _ => bind (.change _) fun _ => give _

theorem control (op : Control) (args : List Value) (h : op.arity.accepts args.length) :
    Uniform (control c op args) := by
  -- The number of arguments has been checked, so the other lists of arguments do not come here.
  cases op with
  | apply =>
    rcases args with _ | ⟨f, more⟩
    · cases h
    · cases hlast : more.getLast? with
      | none =>
        have hmove : Machine.control c .apply (f :: more) = fun k => pure (.apply f [], k) := by
          funext k
          simp only [Machine.control, hlast]
        rw [hmove]
        exact stay nofun
      | some last =>
        have hmove : Machine.control c .apply (f :: more) = fun k =>
            Argument.list "apply" last >>= fun spread =>
              pure (.apply f (more.dropLast ++ spread), k) := by
          funext k
          simp only [Machine.control, hlast]
        rw [hmove]
        exact bind (Ordinary.list _ _) fun spread => stay nofun
  | map =>
    rcases args with _ | ⟨f, lists⟩
    · cases h
    · exact bind (columns _ lists) fun columns => map columns []
  | forEach =>
    rcases args with _ | ⟨f, lists⟩
    · cases h
    · exact bind (columns _ lists) forEach
  | callWithCurrentContinuation =>
    rcases args with _ | ⟨f, _ | ⟨_, _⟩⟩
    · cases h
    · exact capture
    · simp [Control.arity, Arity.accepts] at h
  | callCC =>
    rcases args with _ | ⟨f, _ | ⟨_, _⟩⟩
    · cases h
    · exact capture
    · simp [Control.arity, Arity.accepts] at h
  | eval =>
    rcases args with _ | ⟨form, rest⟩
    · cases h
    · exact bind (Ordinary.expandToplevel _ _) fun form => stay nofun
  | force =>
    rcases args with _ | ⟨v, _ | ⟨_, _⟩⟩
    · cases h
    · cases v with
      | promise a => exact force a
      | _ => exact give _
    · simp [Control.arity, Arity.accepts] at h
  | display =>
    rcases args with _ | ⟨v, target⟩
    · cases h
    · exact written _ _ target
  | write =>
    rcases args with _ | ⟨v, target⟩
    · cases h
    · exact written _ _ target
  | newline => exact bind (checkOutput _ args) fun _ => bind (.change _) fun _ => give _
  | currentOutputPort =>
    rcases args with _ | ⟨_, _⟩
    · exact give _
    · simp [Control.arity, Arity.accepts] at h

theorem apply (args : List Value) : Uniform (apply c f args) := by
  cases f with
  | primitive p =>
    cases hargs : p.arity.accepts args.length with
    | false =>
      have hmove : Machine.apply c (.primitive p) args = fun _ =>
          Argument.miscounted p.name p.arity args := by
        funext k
        simp only [Machine.apply, hargs]
        rfl
      rw [hmove]
      exact fail trivial
    | true =>
      cases p with
      | routine r =>
        have hmove : Machine.apply c (.primitive (.routine r)) args = fun k =>
            r.run args >>= fun v => giveValue v k := by
          funext k
          simp only [Machine.apply, hargs, if_true]
        rw [hmove]
        exact giving (Ordinary.routine r args)
      | control op =>
        have hmove : Machine.apply c (.primitive (.control op)) args =
            Machine.control c op args := by
          funext k
          simp only [Machine.apply, hargs, if_true]
        rw [hmove]
        exact control op args hargs
  | escape id =>
    rcases args with _ | ⟨v, _ | ⟨_, _⟩⟩
    · exact stay nofun
    · exact stay nofun
    · exact fail trivial
  | closure a =>
    exact bind (.inspect _) fun closure => bind (Ordinary.bind _ _) fun env =>
      sequence closure.body
  | _ => exact complain _ fun _ => trivial

end Applications

section Templates

variable {env : Environment} {level : Nat}

theorem templateForm (keyword : QuasiKeyword) (operand : Value) :
    Uniform (templateForm keyword operand env level) := by
  cases keyword with
  | quasiquote => exact push nofun rfl
  | unquote => exact either (stay nofun) (push nofun rfl)
  | unquoteSplicing => exact either (fail trivial) (push nofun rfl)

theorem spliced {item rest : Value} (splice : Option Value) : Uniform fun k =>
    match splice with
    | some operand => pure (.eval operand env, .quasiSplice rest env level :: k)
    | none => pure (.template item env level, .quasiRest rest env level :: k) := by
  cases splice with
  | some operand => exact push nofun rfl
  | none => exact push nofun rfl

theorem template (v : Value) : Uniform (template v env level) := by
  cases v with
  | pair a =>
    refine bind (.inspect _) fun form => ?_
    cases form with
    | some form => exact templateForm form.1 form.2
    | none =>
      refine bind (.inspect _) fun p => ?_
      exact either (bind (.inspect _) spliced) (bind (.pure _) spliced)
  | vector a => exact bind (.inspect _) fun items => bind (.lift _) fun list => push nofun rfl
  | _ => exact give _

end Templates

theorem resume {c : Context} {v : Value} (waiting : Pending) : Uniform (resume c v waiting) := by
  cases waiting with
  | nested | call | capture => exact give v
  | operator operands env =>
    refine bind (.inspect _) fun forms => ?_
    cases forms with
    | some forms => exact arguments [] forms
    | none => exact complain _ fun _ => trivial
  | operands f done more env => exact arguments _ more
  | branch consequent alternative env =>
    unfold Machine.resume
    cases v.isTrue with
    | true => exact stay nofun
    | false =>
      cases alternative with
      | some form => exact stay nofun
      | none => exact give _
  | definition x env => exact bindDefinition x v
  | assignment x env => exact bind (Ordinary.assign _ _ _) fun _ => give _
  | body more env => exact sequence more
  | conjunction more env =>
    unfold Machine.resume
    cases v.isTrue with
    | true => exact conjunction more
    | false => exact give v
  | disjunction more env =>
    unfold Machine.resume
    cases v.isTrue with
    | true => exact give v
    | false => exact disjunction more
  | mapping f columns done => exact map columns _
  | iteration f columns => exact forEach columns
  | forcing a => exact settle a v
  | quasiForm keyword => exact giving (.lift _)
  | quasiSplice rest env level =>
    refine bind (.inspect _) fun items => ?_
    cases items with
    | some items => exact push nofun rfl
    | none => exact complain _ fun _ => trivial
  | quasiAppend items => exact giving (.lift _)
  | quasiRest rest env level => exact push nofun rfl
  | quasiCons car => exact giving (.lift _)
  | quasiVector => exact bind (.inspect _) fun items => giving (.lift _)

end Uniform
end Machine
end HygienicScheme
