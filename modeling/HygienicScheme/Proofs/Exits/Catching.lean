import HygienicScheme.Proofs.Discipline.Blind
import HygienicScheme.Proofs.Discipline.Sessions
import HygienicScheme.Proofs.Store.Everywhere
import Mathlib.Logic.Function.Iterate

/-!
# Where exits are caught

Nothing on the stack looks at an escape on its way but the call that was handed its exit. Since the
exits on the stack are all different, an exit that is taken ends that one call, and if the call has
returned it ends the whole evaluation.

An exit is a number, and the numbers are handed out in order, one for each call of a procedure with
its exit. So no state has an exit with a later number, wherever values stand in it, and the exits
whose calls are on the stack stand there in the order of their numbers.
-/
namespace HygienicScheme

/-! ### Exits are numbered in order -/

def Value.Issued (n : Nat) (v : Value) : Prop := ∀ id, v = .escape id → id ≤ n

section Issued

variable {n : Nat} {v : Value}

theorem Value.Issued.mono {k : Nat} (h : v.Issued n) (hnk : n ≤ k) : v.Issued k :=
  fun id hv => Nat.le_trans (h id hv) hnk

theorem Value.issued_of_ne (h : ∀ id, v ≠ .escape id) : v.Issued n := fun id hv => absurd hv (h id)

theorem Value.issued_escape {id : Nat} : (escape id).Issued n ↔ id ≤ n :=
  ⟨fun h => h id rfl, fun h _ hv => by
    cases hv
    exact h⟩

open Value (issued_of_ne)

def issuing : Blind where
  Holds s := s.All (Value.Issued s.exits)
  Data s := Value.Issued s.exits
  Leads s t := s.exits ≤ t.exits
  refl _ := Nat.le_refl _
  trans := Nat.le_trans
  data_leads hst hv := hv.mono hst
  constant _ hv _ _ := issued_of_ne hv
  name _ := issued_of_ne (by simp [Value.name])
  slot hs _ hw := hs.slot hw
  cons hs hcar hcdr := ⟨⟨hs.push_pair hcar hcdr, Nat.le_refl _⟩, issued_of_ne (by simp)⟩
  vector hs hitems := ⟨⟨hs.push_vector hitems, Nat.le_refl _⟩, issued_of_ne (by simp)⟩
  bound hs _ hb := hs.binding _ _ hb
  promised a hs := hs.promise a
  promise hs hv := ⟨⟨hs.push_promise hv, Nat.le_refl _⟩, issued_of_ne (by simp)⟩
  child _ hs _ hbindings := ⟨⟨hs.push_frame hbindings, Nat.le_refl _⟩, trivial⟩
  setPair hs _ hcar hcdr := ⟨hs.modify_pair hcar hcdr, Nat.le_refl _⟩
  setVector hs _ hitems := ⟨hs.modify_vector hitems, Nat.le_refl _⟩
  settle _ hs _ hv := ⟨hs.set_promise hv, Nat.le_refl _⟩
  bind f x _ hs hv := ⟨hs.bind f x hv, Nat.le_refl _⟩
  string _ hs := ⟨{ hs with }, Nat.le_refl _⟩
  emit _ hs := ⟨{ hs with }, Nat.le_refl _⟩
  exit hs := by
    have hmore : ∀ n : Nat, n ≤ n + 1 := fun n => Nat.le_succ n
    exact ⟨⟨{ hs.mono fun _ hv => hv.mono (hmore _) with }, hmore _⟩,
      Value.issued_escape.mpr (Nat.le_refl _)⟩
  symbol _ _ := issued_of_ne (by simp)
  use hs := ⟨⟨{ hs with }, Nat.le_refl _⟩, trivial⟩
  phase hs := ⟨{ hs with }, Nat.le_refl _⟩
  install env _ hs _ _ hm := ⟨hs.install env hm, Nat.le_refl _⟩
  constants hs hm v hv := hs.constant _ _ hm v hv
  body a hs _ := hs.body a
  closure hs _ _ hbody := ⟨⟨hs.push_closure hbody, Nat.le_refl _⟩, issued_of_ne (by simp)⟩

/-- Sessions that are given values without exits of other sessions. -/
def issuedTerms : Terms where
  datum _ := True
  value s v := v.Issued s.exits
  step _ := True

theorem issuing_admits : issuing.regimen.Admits issuedTerms where
  datum _ hs := EvaluationDiscipline.holds_place (fun _ _ _ => issued_of_ne nofun) hs
  value hv := ⟨hv, trivial⟩
  step _ := issuing.allows _

theorem placeable_issued (d : Datum) : Interpreter.Placeable issuedTerms d := by
  refine ⟨trivial, fun s => issued_of_ne fun id h => ?_⟩
  cases d <;> cases h

theorem follows_texts_issued (config : Config) (outputName : String) (texts : List String) :
    (texts.foldl (fun i text => (i.evalText text).2) (Interpreter.new config outputName)).Follows
      config outputName issuedTerms :=
  Interpreter.follows_texts (fun _ => trivial) config outputName
    (fun _ _ _ d _ => placeable_issued d) texts

namespace Machine

variable {c : Context} {m m' : Machine} {k above below rest : Stack} {id d : Nat} {s : Store}

theorem captures_append : captures (above ++ below) = captures above ++ captures below :=
  List.filterMap_append

theorem mem_captures : id ∈ captures k ↔ .capture id ∈ k := by
  simp only [captures, List.mem_filterMap]
  constructor
  · rintro ⟨waiting, hw, hid⟩
    cases waiting <;> cases hid
    exact hw
  · exact fun h => ⟨_, h, rfl⟩

structure Issuing (m : Machine) : Prop where
  kept : m.Kept issuing.regimen
  ordered : (captures m.stack).Pairwise (· > ·)

namespace Issuing

theorem captures_le (h : m.Issuing) : ∀ id ∈ captures m.stack, id ≤ m.store.exits := by
  intro id hid
  exact Value.issued_escape.mp (h.kept.stack _ (mem_captures.mp hid)).all

theorem all (h : m.Issuing) : m.All (Value.Issued m.store.exits) :=
  ⟨h.kept.store, h.kept.task.all, fun w hw => (h.kept.stack w hw).all⟩

theorem of_steps (h : m.Issuing) (hstep : issuing.regimen.Steps m m') : m'.Issuing := by
  refine ⟨hstep.kept, ?_⟩
  obtain ⟨new, rest, hstack, hrest, hnew⟩ := hstep.stack
  have hsuffix : (captures rest).Sublist (captures m.stack) := hrest.sublist.filterMap _
  have hordered := h.ordered.sublist hsuffix
  rw [hstack, captures_append]
  rcases hnew with hnew | hnew <;> rw [hnew]
  · exact hordered
  · exact List.pairwise_cons.mpr
      ⟨fun id hid => Nat.lt_succ_of_le (h.captures_le id (hsuffix.subset hid)), hordered⟩

theorem next (h : m.Issuing) (hnext : Next c issuedTerms m m') :
    m'.Issuing ∧ m.store.exits ≤ m'.store.exits := by
  have hstep := Regimen.next issuing_admits trivial h.kept hnext
  exact ⟨h.of_steps hstep, hstep.leads⟩

theorem session (h : m.Issuing) (hrest : Relation.ReflTransGen (Next c issuedTerms) m m') :
    m'.Issuing ∧ m.store.exits ≤ m'.store.exits := by
  induction hrest with
  | refl => exact ⟨h, Nat.le_refl _⟩
  | tail _ hnext ih =>
    obtain ⟨hm, hle⟩ := ih.1.next hnext
    exact ⟨hm, Nat.le_trans ih.2 hle⟩

end Issuing

theorem issuing_of_reached {config : Config} {outputName : String}
    (h : Reached config outputName issuedTerms m) : m.Issuing := by
  have hfirst : (idle (Interpreter.bare config outputName).store).Issuing := by
    have hbare := issuing.regimen.holds_bare config outputName (.empty (issued_of_ne nofun)) trivial
    exact ⟨Regimen.kept_idle hbare.1, List.Pairwise.nil⟩
  exact (hfirst.session h).1

end Machine

end Issued

/-! ### What catches an escape -/

def Task.takesExit? : Task → Option Value
  | .apply (.primitive (.control .callWithCurrentContinuation)) [f]
  | .apply (.primitive (.control .callCC)) [f] => some f
  | _ => none

open Value (issued_of_ne)

namespace Machine

variable {c : Context} {m m' : Machine} {k above below : Stack} {id d : Nat} {s : Store} {v : Value}

def HandsOut (c : Context) (m : Machine) (id : Nat) : Prop :=
  ∃ f, m.task.takesExit? = some f ∧ m.step c =
    ⟨.apply f [.escape id], .call :: .capture id :: m.stack, m.depth, { m.store with exits := id }⟩

def depthBelow (above : Stack) (d : Nat) : Nat :=
  above.foldl (fun d waiting => depthWithout waiting d) d

theorem step_takesExit {f : Value} (h : m.task.takesExit? = some f) : m.step c =
    ⟨.apply f [.escape (m.store.exits + 1)], .call :: .capture (m.store.exits + 1) :: m.stack,
      m.depth, { m.store with exits := m.store.exits + 1 }⟩ := by
  obtain ⟨task, k, d, s⟩ := m
  dsimp only at h
  unfold Task.takesExit? at h
  split at h <;> cases h <;> rfl

theorem HandsOut.eq (h : m.HandsOut c id) : id = m.store.exits + 1 := by
  obtain ⟨f, hf, hstep⟩ := h
  rw [step_takesExit hf] at hstep
  exact (congrArg (fun m => m.store.exits) hstep).symm

theorem step_escape {waiting : Pending} (hw : waiting ≠ .capture id) :
    step c ⟨.escape id v, waiting :: k, d, s⟩ = ⟨.escape id v, k, depthWithout waiting d, s⟩ := by
  cases waiting with
  | capture target =>
    have hne : (target == id) = false := by
      rw [beq_eq_false_iff_ne]
      rintro rfl
      exact hw rfl
    simp only [step, hne, Bool.false_eq_true, if_false]
    rfl
  | _ => rfl

theorem step_caught :
    step c ⟨.escape id v, .capture id :: k, d, s⟩ = ⟨.value v, k, d, s⟩ := by
  simp [step]

theorem iterate_escape (h : .capture id ∉ above) :
    (step c)^[above.length] ⟨.escape id v, above ++ below, d, s⟩ =
      ⟨.escape id v, below, depthBelow above d, s⟩ := by
  induction above generalizing d with
  | nil => rfl
  | cons waiting above ih =>
    obtain ⟨hw, habove⟩ := not_or.mp (mt List.mem_cons.mpr h)
    rw [List.length_cons, Function.iterate_succ_apply, List.cons_append, step_escape (Ne.symm hw)]
    exact ih habove

theorem iterate_escape_take (h : .capture id ∉ above) {j : Nat} (hj : j ≤ above.length) :
    (step c)^[j] ⟨.escape id v, above ++ below, d, s⟩ =
      ⟨.escape id v, above.drop j ++ below, depthBelow (above.take j) d, s⟩ := by
  have htake : .capture id ∉ above.take j := fun hmem => h (List.mem_of_mem_take hmem)
  have hiterate : (step c)^[(above.take j).length]
      ⟨.escape id v, above.take j ++ (above.drop j ++ below), d, s⟩ =
        ⟨.escape id v, above.drop j ++ below, depthBelow (above.take j) d, s⟩ :=
    iterate_escape htake
  rwa [List.length_take_of_le hj, ← List.append_assoc, List.take_append_drop] at hiterate

theorem step_exit {args : List Value} (h : args.length ≤ 1) :
    step c ⟨.apply (.escape id) args, k, d, s⟩ =
      ⟨.escape id (args.head?.getD .unspecified), k, d, s⟩ := by
  match args with
  | [] | [_] => rfl
  | _ :: _ :: _ => simp at h

theorem Issuing.other_captures (h : m.Issuing) (hstack : m.stack = above ++ .capture id :: below) :
    .capture id ∉ above ∧ .capture id ∉ below := by
  have hordered := h.ordered
  rw [hstack, captures_append, show captures (.capture id :: below) = id :: captures below from rfl,
    List.pairwise_append] at hordered
  obtain ⟨-, hbelow, habove⟩ := hordered
  constructor
  · exact fun hmem => Nat.lt_irrefl id (habove id (mem_captures.mpr hmem) id List.mem_cons_self)
  · exact fun hmem => Nat.lt_irrefl id ((List.pairwise_cons.mp hbelow).1 id (mem_captures.mpr hmem))

theorem run_escape (h : .capture id ∉ k) {n : Nat} (hn : k.length < n) :
    run c n ⟨.escape id v, k, d, s⟩ = (.error (.eval (.deadExit id)), s) := by
  induction k generalizing d n with
  | nil =>
    obtain ⟨n, rfl⟩ := Nat.exists_eq_succ_of_ne_zero (Nat.ne_zero_of_lt hn)
    rfl
  | cons waiting k ih =>
    obtain ⟨n, rfl⟩ := Nat.exists_eq_succ_of_ne_zero (Nat.ne_zero_of_lt hn)
    obtain ⟨hw, hk⟩ := not_or.mp (mt List.mem_cons.mpr h)
    have hrun : run c (n + 1) ⟨.escape id v, waiting :: k, d, s⟩ =
        run c n (step c ⟨.escape id v, waiting :: k, d, s⟩) := rfl
    rw [hrun, step_escape (Ne.symm hw)]
    exact ih hk (Nat.lt_of_succ_lt_succ hn)

/-- How a state of a session deals with exits. -/
structure DealsExits (c : Context) (m : Machine) : Prop where
  /-- All exits anywhere were handed out. -/
  issued : m.All (Value.Issued m.store.exits)
  /-- A procedure is called with an exit that stands nowhere yet. -/
  fresh : ∀ f, m.task.takesExit? = some f → ∃ id, m.HandsOut c id ∧ m.All (· ≠ .escape id)
  /-- However the session goes on, the exits that it hands out later have higher numbers. -/
  increasing : ∀ id m' id', m.HandsOut c id →
    Relation.ReflTransGen (Next c issuedTerms) (m.step c) m' → m'.HandsOut c id' → id < id'
  /-- An exit that is taken while its call is on the stack ends this call with the argument, and
  everything above it ends before and does nothing. -/
  caught : ∀ id args above below, m.task = .apply (.escape id) args → args.length ≤ 1 →
    m.stack = above ++ .capture id :: below →
    let v := args.head?.getD .unspecified
    (.capture id ∉ above ∧ .capture id ∉ below) ∧
      (∀ j ≤ above.length, (step c)^[j + 1] m = ⟨.escape id v,
        above.drop j ++ .capture id :: below, depthBelow (above.take j) m.depth, m.store⟩) ∧
      (step c)^[above.length + 2] m = ⟨.value v, below, depthBelow above m.depth, m.store⟩
  /-- An exit that is taken later passes every call and ends the evaluation. -/
  dead : ∀ id args, m.task = .apply (.escape id) args → args.length ≤ 1 → .capture id ∉ m.stack →
    let v := args.head?.getD .unspecified
    (∀ j ≤ m.stack.length, (step c)^[j + 1] m =
      ⟨.escape id v, m.stack.drop j, depthBelow (m.stack.take j) m.depth, m.store⟩) ∧
      ∀ n > m.stack.length + 1, m.run c n = (.error (.eval (.deadExit id)), m.store)

theorem Issuing.fresh (h : m.Issuing) : m.All (· ≠ .escape (m.store.exits + 1)) := by
  refine h.all.mono ?_
  rintro v hv rfl
  exact Nat.not_succ_le_self _ (Value.issued_escape.mp hv)

/-- In every state that a session comes to, exits are handed out in order and each is caught where
it was handed out and nowhere else. -/
theorem exits_of_reached {config : Config} {outputName : String}
    (h : Reached config outputName issuedTerms m) :
    m.DealsExits (Interpreter.bare config outputName).context := by
  have hm := issuing_of_reached h
  generalize (Interpreter.bare config outputName).context = c
  exact {
    issued := hm.all
    fresh := fun f hf => ⟨m.store.exits + 1, ⟨f, hf, step_takesExit hf⟩, hm.fresh⟩
    increasing := by
      intro id m' id' hid hrest hid'
      obtain ⟨f, hf, hstep⟩ := hid
      have hle := ((hm.next (.step trivial)).1.session hrest).2
      rw [hstep] at hle
      rw [hid'.eq]
      exact Nat.lt_succ_of_le hle
    caught := by
      intro id args above below htask hargs hstack v
      have hother := hm.other_captures hstack
      obtain ⟨task, k, d, s⟩ := m
      obtain rfl : task = .apply (.escape id) args := htask
      obtain rfl : k = above ++ .capture id :: below := hstack
      refine ⟨hother, fun j hj => ?_, ?_⟩
      · rw [Function.iterate_succ_apply, step_exit hargs]
        exact iterate_escape_take hother.1 hj
      · rw [Function.iterate_succ_apply, step_exit hargs, Function.iterate_succ_apply',
          iterate_escape hother.1]
        exact step_caught
    dead := by
      intro id args htask hargs hstack v
      obtain ⟨task, k, d, s⟩ := m
      obtain rfl : task = .apply (.escape id) args := htask
      refine ⟨fun j hj => ?_, fun n hn => ?_⟩
      · rw [Function.iterate_succ_apply, step_exit hargs]
        have hiterate : (step c)^[j] ⟨.escape id (args.head?.getD .unspecified), k ++ [], d, s⟩ =
            ⟨.escape id (args.head?.getD .unspecified), k.drop j ++ [], depthBelow (k.take j) d,
              s⟩ :=
          iterate_escape_take hstack hj
        rwa [List.append_nil, List.append_nil] at hiterate
      · obtain ⟨n, rfl⟩ := Nat.exists_eq_succ_of_ne_zero (Nat.ne_zero_of_lt hn)
        have hrun : run c (n + 1) ⟨.apply (.escape id) args, k, d, s⟩ =
            run c n (step c ⟨.apply (.escape id) args, k, d, s⟩) := rfl
        rw [hrun, step_exit hargs]
        exact run_escape hstack (Nat.lt_of_succ_lt_succ hn) }

theorem Reached.iterate {config : Config} {outputName : String}
    (h : Reached config outputName issuedTerms m) (n : Nat) :
    Reached config outputName issuedTerms
      ((step (Interpreter.bare config outputName).context)^[n] m) := by
  induction n with
  | zero => exact h
  | succ n ih =>
    rw [Function.iterate_succ_apply']
    exact ih.tail (.step trivial)

def exit? : Task → Option Nat
  | .apply (.escape id) _ => some id
  | _ => none

/-- Here the first exit is taken while the call that was handed the second one is on the stack. -/
theorem exits_of_reached_nested :
    let i := Interpreter.bare {} "out"
    let form := (Datum.list [.name "call/cc", .name "call/cc"]).place i.store
    let m := (step i.context)^[7] (.start form.1 i.context.global form.2)
    m.DealsExits i.context ∧ exit? m.task = some 1 ∧ captures m.stack = [2, 1] := by
  intro i form m
  have hplace : Reached {} "out" issuedTerms ⟨.value form.1, [], 0, form.2⟩ :=
    .tail .refl (.place trivial)
  have hstart : Reached {} "out" issuedTerms (.start form.1 i.context.global form.2) :=
    hplace.tail (.raw (issued_of_ne nofun))
  exact ⟨exits_of_reached (hstart.iterate 7), by decide +kernel, by decide +kernel⟩

end Machine

end HygienicScheme
