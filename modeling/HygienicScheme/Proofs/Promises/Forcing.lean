import HygienicScheme.Proofs.Depth.Balance
import HygienicScheme.Proofs.Evaluation.Frames
import HygienicScheme.Proofs.Promises.Delayed
import Mathlib.Data.Nat.Find

/-!
# A promise is computed at most once

Between the call of its thunk and its return anything may happen to a promise: the thunk may force
it again, fail, or escape. But only a value that comes back to the promise while it is delayed
forces it, and once it is forced it stays so. So it does not matter what the promise was when a
force began: all forces that end with a value end with the same one.
-/
namespace HygienicScheme

def Task.forces? : Task → Option Address
  | .apply (.primitive (.control .force)) [.promise a] => some a
  | _ => none

namespace Machine

variable {c : Context} {T : Terms} {m m' : Machine} {a : Address} {v w thunk : Value} {p : Promise}
  {k : Stack} {d n : Nat}

theorem Settles.promise_step (h : m.Settles a v) (b : Address) :
    (m.step c).store.promises[b]? = (m.store.promises.setIfInBounds a (.forced v))[b]? := by
  obtain ⟨k, -, hstep⟩ := h.step (c := c)
  rw [hstep]

theorem Settles.forced (h : m.Settles a v) (ha : m.store.promises[a]? = some p) :
    (m.step c).store.promises[a]? = some (.forced v) := by
  obtain ⟨hlt, -⟩ := Array.getElem?_eq_some_iff.mp ha
  rw [h.promise_step, Array.getElem?_setIfInBounds_self, if_pos hlt]

/-- What comes next leaves a promise as it is, or it is the step that forces it. -/
theorem promise_next (h : Next c T m m') (ha : m.store.promises[a]? = some p) :
    m'.store.promises[a]? = some p ∨
      ∃ v, m.Settles a v ∧ m' = m.step c ∧ m'.store.promises[a]? = some (.forced v) := by
  rcases postpones_next h with h | ⟨b, v, hsettles, rfl⟩
  · exact .inl (h.kept ha)
  · by_cases hba : b = a
    · subst hba
      exact .inr ⟨v, hsettles, rfl, hsettles.forced ha⟩
    · refine .inl ?_
      rw [hsettles.promise_step, Array.getElem?_setIfInBounds_ne hba, ha]

theorem made_next (h : Next c T m m') (hm : m.store.promises[a]? = none)
    (hm' : m'.store.promises[a]? = some p) : ∃ thunk, p = .delayed thunk := by
  rcases postpones_next h with h | ⟨b, v, hsettles, rfl⟩
  · exact h.made hm hm'
  · have hle := Array.getElem?_eq_none_iff.mp hm
    rw [hsettles.promise_step, Array.getElem?_eq_none (by simpa using hle)] at hm'
    cases hm'

/-- No value comes back to a promise that is forced as one that it is to keep. -/
theorem Settles.not_forced (h : m.Settles a v) : m.store.promises[a]? ≠ some (.forced w) := by
  intro hforced
  obtain ⟨thunk, hdelayed⟩ := h.delayed
  rw [Store.promiseAt_of_some hforced] at hdelayed
  cases hdelayed

theorem forced_next (h : Next c T m m') (ha : m.store.promises[a]? = some (.forced v)) :
    m'.store.promises[a]? = some (.forced v) := by
  rcases promise_next h ha with ha' | ⟨w, hsettles, -, -⟩
  · exact ha'
  · exact absurd ha hsettles.not_forced

theorem forced_session (h : Relation.ReflTransGen (Next c T) m m')
    (ha : m.store.promises[a]? = some (.forced v)) : m'.store.promises[a]? = some (.forced v) := by
  induction h with
  | refl => exact ha
  | tail _ hnext ih => exact forced_next hnext ih

theorem delayed_session (h : Relation.ReflTransGen (Next c T) m m')
    (ha : m.store.promises[a]? = some (.delayed thunk)) :
    m'.store.promises[a]? = some (.delayed thunk) ∨ ∃ m₁ v, Relation.ReflTransGen (Next c T) m m₁ ∧
      m₁.Settles a v ∧ Relation.ReflTransGen (Next c T) (m₁.step c) m' ∧
      m'.store.promises[a]? = some (.forced v) := by
  induction h with
  | refl => exact .inl ha
  | @tail m₂ m₃ hbefore hnext ih =>
    rcases ih with hdelayed | ⟨m₁, v, hm₁, hsettles, hlater, hforced⟩
    · rcases promise_next hnext hdelayed with hsame | ⟨v, hsettles, rfl, hforced⟩
      · exact .inl hsame
      · exact .inr ⟨m₂, v, hbefore, hsettles, .refl, hforced⟩
    · exact .inr ⟨m₁, v, hm₁, hsettles, hlater.tail hnext, forced_next hnext hforced⟩

section Runs

theorem session_iterate (c : Context) (m : Machine) (n : Nat) :
    Relation.ReflTransGen (Next c ownedTerms) m ((step c)^[n] m) := by
  induction n with
  | zero => exact .refl
  | succ n ih =>
    rw [Function.iterate_succ_apply']
    exact ih.tail (.step trivial)

/-- A promise that is forced somewhere in a run is forced with the same value later in it. -/
theorem forced_iterate {i : Nat} (hi : i ≤ n)
    (ha : ((step c)^[i] m).store.promises[a]? = some (.forced v)) :
    ((step c)^[n] m).store.promises[a]? = some (.forced v) := by
  obtain ⟨j, rfl⟩ := Nat.exists_eq_add_of_le hi
  rw [Nat.add_comm, Function.iterate_add_apply]
  exact forced_session (session_iterate c _ j) ha

theorem delayed_iterate (ha : m.store.promises[a]? = some (.delayed thunk)) (n : Nat) :
    ((step c)^[n] m).store.promises[a]? = some (.delayed thunk) ∨ ∃ i < n, ∃ v,
      ((step c)^[i] m).Settles a v ∧ ((step c)^[n] m).store.promises[a]? = some (.forced v) := by
  induction n with
  | zero => exact .inl ha
  | succ n ih =>
    have hnext : Next c ownedTerms ((step c)^[n] m) ((step c)^[n + 1] m) := by
      rw [Function.iterate_succ_apply']
      exact .step trivial
    rcases ih with hdelayed | ⟨i, hi, v, hsettles, hforced⟩
    · rcases promise_next hnext hdelayed with hsame | ⟨v, hsettles, -, hforced⟩
      · exact .inl hsame
      · exact .inr ⟨n, Nat.lt_succ_self n, v, hsettles, hforced⟩
    · exact .inr ⟨i, Nat.lt_succ_of_lt hi, v, hsettles, forced_next hnext hforced⟩

end Runs

theorem step_forces (h : m.task.forces? = some a) :
    m.step c = perform (force a m.stack) m.stack m.depth m.store := by
  obtain ⟨task, k, d, s⟩ := m
  dsimp only at h
  unfold Task.forces? at h
  split at h <;> cases h
  rfl

theorem step_forces_forced (h : m.task.forces? = some a)
    (ha : m.store.promises[a]? = some (.forced v)) :
    m.step c = ⟨.value v, m.stack, m.depth, m.store⟩ := by
  rw [step_forces h, perform, force, Action.inspect_bind, Store.promiseAt_of_some ha]
  rfl

theorem step_forces_delayed (h : m.task.forces? = some a)
    (ha : m.store.promises[a]? = some (.delayed thunk)) :
    m.step c = ⟨.apply thunk [], .call :: .forcing a :: m.stack, m.depth, m.store⟩ := by
  rw [step_forces h, perform, force, Action.inspect_bind, Store.promiseAt_of_some ha]
  rfl

structure Concludes (run : Nat → Machine) (a : Address) (thunk : Value) (k : Stack) (d n : Nat) :
    Prop where
  inside : ∀ i ≤ n, (run i).Inside (.forcing a :: k) d
  returned : (run n).Returned (.forcing a :: k) d
  /-- Whatever the value of the call is, the force ends with what the promise keeps: the value that
  a force within the call has given it, or else this one. -/
  value : ∀ w, (run n).task = .value w → ∃ v s, run (n + 1) = ⟨.value v, k, d, s⟩ ∧
    s.promises[a]? = some (.forced v) ∧
    (∀ i ≤ n, ∀ u, (run i).store.promises[a]? = some (.forced u) → v = u) ∧
    ((run n).store.promises[a]? = some (.delayed thunk) → v = w)
  /-- With an error or an escape it ends with the same, and does nothing to the promise, which is as
  it was made if no force within the call has ended with a value. -/
  failed : (∀ w, (run n).task ≠ .value w) →
    run (n + 1) = ⟨(run n).task, k, d, (run n).store⟩ ∧
    ((run n).store.promises[a]? = some (.delayed thunk) ∨
      ∃ i < n, ∃ v, (run i).Settles a v ∧ (run n).store.promises[a]? = some (.forced v))

theorem Returned.step_failed (h : m.Returned (.forcing a :: k) d) (htask : ∀ w, m.task ≠ .value w) :
    m.step c = ⟨m.task, k, d, m.store⟩ := by
  obtain ⟨task, stack, depth, s⟩ := m
  obtain ⟨rfl, rfl, hhanded⟩ := h
  cases hhanded with
  | value w => exact absurd rfl (htask w)
  | escape id v => rfl
  | error e => rfl
  | form form env hk => cases hk

theorem concludes (ha : m.store.promises[a]? = some (.delayed thunk))
    (hinside : ∀ i ≤ n, ((step c)^[i] m).Inside (.forcing a :: k) d)
    (hreturned : ((step c)^[n] m).Returned (.forcing a :: k) d) :
    Concludes (fun i => (step c)^[i] m) a thunk k d n where
  inside := hinside
  returned := hreturned
  value := by
    intro w hw
    obtain ⟨hstack, hdepth, -⟩ := hreturned
    have hstep : (step c)^[n + 1] m = ((step c)^[n] m).step c := Function.iterate_succ_apply' _ _ _
    rcases delayed_iterate (c := c) ha n with hdelayed | ⟨i, hi, v, hsettles, hforced⟩
    · have hsettles : ((step c)^[n] m).Settles a w :=
        ⟨hw, ⟨k, hstack⟩, thunk, Store.promiseAt_of_some hdelayed⟩
      have hforced := hsettles.forced (c := c) hdelayed
      obtain ⟨k', hstack', hsettled⟩ := hsettles.step (c := c)
      obtain rfl : k' = k := by simpa [hstack] using hstack'.symm
      rw [hsettled] at hforced
      refine ⟨w, _, hstep.trans (hsettled.trans (by rw [hdepth])), hforced, ?_, fun _ => rfl⟩
      intro i hi u hu
      cases hdelayed.symm.trans (forced_iterate hi hu)
    · refine ⟨v, ((step c)^[n] m).store, ?_, hforced, ?_, fun h => ?_⟩
      · rw [hstep, step_forcing_forced hw hstack (Store.promiseAt_of_some hforced), hdepth]
      · intro i hi u hu
        cases (forced_iterate hi hu).symm.trans hforced
        rfl
      · cases hforced.symm.trans h
  failed := by
    intro hw
    refine ⟨?_, delayed_iterate ha n⟩
    exact (Function.iterate_succ_apply' _ _ _).trans (hreturned.step_failed hw)

/-- From where the thunk is called, the run stays above the promise until the call comes back. -/
theorem forcing_run (ha : m.store.promises[a]? = some (.delayed thunk))
    (h : m.Inside (.forcing a :: k) d) (n : Nat) :
    (∀ i ≤ n, ((step c)^[i] m).Inside (.forcing a :: k) d) ∨
      ∃ j < n, Concludes (fun i => (step c)^[i] m) a thunk k d j := by
  classical
  by_cases hreturned : ∃ j < n, ((step c)^[j] m).Returned (.forcing a :: k) d
  · -- The first time that it comes back ends the call.
    let first := Nat.find hreturned
    obtain ⟨hlt, hfirst⟩ := Nat.find_spec hreturned
    refine .inr ⟨first, hlt, concludes ha (fun i hi => ?_) hfirst⟩
    rcases h.iterate (c := c) i with hinside | ⟨j, hj, hback⟩
    · exact hinside
    · exact absurd ⟨by omega, hback⟩ (Nat.find_min hreturned (Nat.lt_of_lt_of_le hj hi))
  · refine .inl fun i hi => ?_
    rcases h.iterate (c := c) i with hinside | ⟨j, hj, hback⟩
    · exact hinside
    · exact absurd ⟨j, Nat.lt_of_lt_of_le hj hi, hback⟩ hreturned

/-- What promises may rely on in a state of a session that began with the first one, whatever comes
next. -/
structure KeepsPromises (c : Context) (m first : Machine) : Prop where
  /-- All promises anywhere were made in the session. -/
  owned : m.All m.store.Owns
  /-- Each was delayed in an earlier state. -/
  started : ∀ (a : Address) p, m.store.promises[a]? = some p → ∃ m₀ thunk,
    Relation.ReflTransGen (Next c ownedTerms) first m₀ ∧
    Relation.ReflTransGen (Next c ownedTerms) m₀ m ∧
    m₀.store.promises[a]? = some (.delayed thunk)
  /-- One that comes next is delayed. -/
  made : ∀ m' (a : Address) p, Next c ownedTerms m m' → m.store.promises[a]? = none →
    m'.store.promises[a]? = some p → ∃ thunk, p = .delayed thunk
  /-- A delayed promise keeps its thunk until a value comes back to it, and keeps this value. -/
  delayed : ∀ m' (a : Address) thunk, Relation.ReflTransGen (Next c ownedTerms) m m' →
    m.store.promises[a]? = some (.delayed thunk) →
    m'.store.promises[a]? = some (.delayed thunk) ∨ ∃ m₁ v,
      Relation.ReflTransGen (Next c ownedTerms) m m₁ ∧ m₁.Settles a v ∧
      Relation.ReflTransGen (Next c ownedTerms) (m₁.step c) m' ∧
      m'.store.promises[a]? = some (.forced v)
  forced : ∀ m' (a : Address) v, Relation.ReflTransGen (Next c ownedTerms) m m' →
    m.store.promises[a]? = some (.forced v) → m'.store.promises[a]? = some (.forced v)
  /-- To force a promise that is forced gives its value at once. -/
  again : ∀ a v, m.task.forces? = some a → m.store.promises[a]? = some (.forced v) →
    m.step c = ⟨.value v, m.stack, m.depth, m.store⟩
  /-- To force one that is delayed calls its thunk above it, and this is all that is evaluated until
  the force ends. -/
  calls : ∀ a thunk, m.task.forces? = some a → m.store.promises[a]? = some (.delayed thunk) →
    m.step c = ⟨.apply thunk [], .call :: .forcing a :: m.stack, m.depth, m.store⟩ ∧
    ∀ n, (∀ i ≤ n, ((step c)^[i] (m.step c)).Inside (.forcing a :: m.stack) m.depth) ∨
      ∃ j < n, Concludes (fun i => (step c)^[i] (m.step c)) a thunk m.stack m.depth j

theorem owned_of_reached {config : Config} {outputName : String}
    (h : Reached config outputName ownedTerms m) : m.All m.store.Owns := by
  have hkept := Regimen.kept_of_reached owning_admits (.empty (Store.owns_of_ne nofun)) trivial h
  exact ⟨hkept.store, hkept.task.all, fun w hw => (hkept.stack w hw).all⟩

/-- Every promise of a state was delayed in an earlier one, if the first state has none. -/
theorem started_session {first : Machine} (h : Relation.ReflTransGen (Next c T) first m)
    (hfirst : first.store.promises[a]? = none) (ha : m.store.promises[a]? = some p) :
    ∃ m₀ thunk, Relation.ReflTransGen (Next c T) first m₀ ∧ Relation.ReflTransGen (Next c T) m₀ m ∧
      m₀.store.promises[a]? = some (.delayed thunk) := by
  induction h generalizing p with
  | refl => cases hfirst.symm.trans ha
  | @tail m₁ m₂ hbefore hnext ih =>
    cases hpromise : m₁.store.promises[a]? with
    | some q =>
      obtain ⟨m₀, thunk, hm₀, hlater, hdelayed⟩ := ih hpromise
      exact ⟨m₀, thunk, hm₀, hlater.tail hnext, hdelayed⟩
    | none =>
      obtain ⟨thunk, rfl⟩ := made_next hnext hpromise ha
      exact ⟨m₂, thunk, hbefore.tail hnext, .refl, ha⟩

theorem forcing_inside (ha : m.store.promises[a]? = some (.delayed thunk))
    (h : m.task.forces? = some a) : (m.step c).Inside (.forcing a :: m.stack) m.depth := by
  rw [step_forces_delayed h ha]
  exact ⟨[.call], rfl, rfl⟩

/-- In every state that a session comes to, promises are computed at most once. -/
theorem promises_of_reached {config : Config} {outputName : String}
    (h : Reached config outputName ownedTerms m) :
    m.KeepsPromises (Interpreter.bare config outputName).context
      (idle (Interpreter.bare config outputName).store) where
  owned := owned_of_reached h
  started _ _ ha := started_session h rfl ha
  made _ _ _ hnext hm hm' := made_next hnext hm hm'
  delayed _ _ _ hsession ha := delayed_session hsession ha
  forced _ _ _ hsession ha := forced_session hsession ha
  again _ _ hforces ha := step_forces_forced hforces ha
  calls _ _ hforces ha := by
    refine ⟨step_forces_delayed hforces ha, forcing_run ?_ (forcing_inside ha hforces)⟩
    rw [step_forces_delayed hforces ha]
    exact ha

def reentrant : Datum :=
  .list [.list [.name "lambda", .list [.name "p", .name "first"],
      .list [.name "set!", .name "p", .list [.name "make-promise", .list [.name "lambda", .list [],
        .list [.name "if", .name "first",
          .list [.name "begin", .list [.name "set!", .name "first", .bool false],
            .list [.name "+", .list [.name "force", .name "p"], .int 1]],
          .int 5]]]],
      .list [.name "force", .name "p"]],
    .bool false, .bool true]

def number? : Task → Option Int64
  | .value (.int n) => some n
  | _ => none

theorem reached_stepped_owned (d : Datum) (n : Nat) :
    Reached {} "out" ownedTerms (stepped d n) :=
  reached_steps trivial (owns_place _ _ _) (fun _ => trivial) n

/-- Here the thunk comes to 6, but the promise was forced with 5 meanwhile. -/
theorem promises_of_reached_reentrant :
    (stepped reentrant 30).KeepsPromises (Interpreter.bare {} "out").context
        (idle (Interpreter.bare {} "out").store) ∧
      (stepped reentrant 30).task.forces? = some 0 ∧
      number? (stepped reentrant 67).task = some 6 ∧ number? (stepped reentrant 68).task = some 5 :=
  ⟨promises_of_reached (reached_stepped_owned _ _), by decide +kernel, by decide +kernel,
    by decide +kernel⟩

end Machine

end HygienicScheme
