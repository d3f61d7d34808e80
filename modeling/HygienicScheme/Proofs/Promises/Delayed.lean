import HygienicScheme.Proofs.Discipline.Blind
import HygienicScheme.Proofs.Discipline.Sessions
import HygienicScheme.Proofs.Store.Everywhere

/-!
# Promises are made delayed

A promise is made with a thunk, and nothing touches it but the step that forces it: the one that
takes a value back to the promise whose thunk was called for it. All other steps, and all else that
happens in a session, at most make new promises, which are delayed. No value anywhere refers to a
promise that was not made.
-/
namespace HygienicScheme

namespace Store

def Postpones (s t : Store) : Prop :=
  ∃ thunks : List Value, t.promises = s.promises ++ (thunks.map Promise.delayed).toArray

def Owns (s : Store) (v : Value) : Prop := ∀ a, v = .promise a → a < s.promises.size

variable {s t u : Store} {v : Value} {a : Address} {p : Promise}

theorem Postpones.of_eq (h : t.promises = s.promises) : s.Postpones t := ⟨[], by simp [h]⟩

theorem Postpones.trans (h : s.Postpones t) (k : t.Postpones u) : s.Postpones u := by
  obtain ⟨first, hfirst⟩ := h
  obtain ⟨more, hmore⟩ := k
  exact ⟨first ++ more, by simp [hmore, hfirst, Array.append_assoc]⟩

theorem Postpones.kept (h : s.Postpones t) (ha : s.promises[a]? = some p) :
    t.promises[a]? = some p := by
  obtain ⟨thunks, h⟩ := h
  obtain ⟨hlt, -⟩ := Array.getElem?_eq_some_iff.mp ha
  rw [h, Array.getElem?_append_left hlt, ha]

theorem Postpones.made (h : s.Postpones t) (hs : s.promises[a]? = none)
    (ht : t.promises[a]? = some p) : ∃ thunk, p = .delayed thunk := by
  obtain ⟨thunks, h⟩ := h
  rw [h, Array.getElem?_append_right (Array.getElem?_eq_none_iff.mp hs),
    List.getElem?_toArray] at ht
  obtain ⟨thunk, -, hthunk⟩ := List.mem_map.mp (List.mem_of_getElem? ht)
  exact ⟨thunk, hthunk.symm⟩

theorem promiseAt_of_some (h : s.promises[a]? = some p) : s.promiseAt a = p := by
  rw [promiseAt, Array.getD_eq_getD_getElem?, h]
  rfl

theorem owns_of_ne (h : ∀ a, v ≠ .promise a) : s.Owns v := fun a hv => absurd hv (h a)

theorem owns_promise : s.Owns (.promise a) ↔ a < s.promises.size :=
  ⟨fun h => h a rfl, fun h _ hv => by
    cases hv
    exact h⟩

theorem Owns.mono (h : s.Owns v) (hst : s.promises.size ≤ t.promises.size) : t.Owns v :=
  fun a hv => Nat.lt_of_lt_of_le (h a hv) hst

end Store

def postponing : FormlessDiscipline where
  Holds _ := True
  Data _ _ := True
  Leads := Store.Postpones
  refl _ := .of_eq rfl
  trans := .trans
  data_leads _ _ := trivial
  constant _ _ _ _ := trivial
  name _ := trivial
  slot _ _ _ := trivial
  cons _ _ _ := ⟨⟨trivial, .of_eq rfl⟩, trivial⟩
  vector _ _ := ⟨⟨trivial, .of_eq rfl⟩, trivial⟩
  bound _ _ _ := trivial
  promised _ _ := trivial
  promise {_ v} _ _ := ⟨⟨trivial, [v], by simp⟩, trivial⟩
  child _ _ _ _ := ⟨⟨trivial, .of_eq rfl⟩, trivial⟩
  setPair _ _ _ _ := ⟨trivial, .of_eq rfl⟩
  setVector _ _ _ := ⟨trivial, .of_eq rfl⟩
  bind _ _ _ _ _ := ⟨trivial, .of_eq rfl⟩
  string _ _ := ⟨trivial, .of_eq rfl⟩
  emit _ _ := ⟨trivial, .of_eq rfl⟩
  exit _ := ⟨⟨trivial, .of_eq rfl⟩, trivial⟩
  symbol _ _ := trivial
  use _ := ⟨⟨trivial, .of_eq rfl⟩, trivial⟩
  phase _ := ⟨trivial, .of_eq rfl⟩
  install _ _ _ _ _ _ := ⟨trivial, .of_eq rfl⟩
  constants _ _ _ _ := trivial
  body _ _ _ _ _ := trivial
  closure _ _ _ _ := ⟨⟨trivial, .of_eq rfl⟩, trivial⟩

def postponed : Regimen := postponing.regimen (fun _ _ => False) fun _ _ h => h.elim

def owning : Blind where
  Holds s := s.All s.Owns
  Data := Store.Owns
  Leads s t := s.promises.size ≤ t.promises.size
  refl _ := Nat.le_refl _
  trans := Nat.le_trans
  data_leads hst hv := hv.mono hst
  constant _ _ hv _ := Store.owns_of_ne hv
  name _ := Store.owns_of_ne (by simp [Value.name])
  slot hs _ hw := hs.slot hw
  cons hs hcar hcdr := ⟨⟨hs.push_pair hcar hcdr, Nat.le_refl _⟩, Store.owns_of_ne (by simp)⟩
  vector hs hitems := ⟨⟨hs.push_vector hitems, Nat.le_refl _⟩, Store.owns_of_ne (by simp)⟩
  bound hs _ hb := hs.binding _ _ hb
  promised a hs := hs.promise a
  promise {s v} hs hv := by
    have hmore : s.promises.size ≤ (s.promises.push (.delayed v)).size := by simp
    exact ⟨⟨(hs.push_promise (p := .delayed v) hv).mono fun _ hw => hw.mono hmore, hmore⟩,
      Store.owns_promise.mpr (by simp)⟩
  child _ hs _ hbindings := ⟨⟨hs.push_frame hbindings, Nat.le_refl _⟩, trivial⟩
  setPair hs _ hcar hcdr := ⟨hs.modify_pair hcar hcdr, Nat.le_refl _⟩
  setVector hs _ hitems := ⟨hs.modify_vector hitems, Nat.le_refl _⟩
  settle a hs _ hv := by
    have hsize : ∀ (s : Store) p, s.promises.size ≤ (s.promises.setIfInBounds a p).size :=
      fun s p => by simp
    exact ⟨(hs.set_promise (p := .forced _) hv).mono fun _ hw => hw.mono (hsize _ _), hsize _ _⟩
  bind f x _ hs hv := ⟨hs.bind f x hv, Nat.le_refl _⟩
  string _ hs := ⟨{ hs with }, Nat.le_refl _⟩
  emit _ hs := ⟨{ hs with }, Nat.le_refl _⟩
  exit hs := ⟨⟨{ hs with }, Nat.le_refl _⟩, Store.owns_of_ne (by simp)⟩
  symbol _ _ := Store.owns_of_ne (by simp)
  use hs := ⟨⟨{ hs with }, Nat.le_refl _⟩, trivial⟩
  phase hs := ⟨{ hs with }, Nat.le_refl _⟩
  install env _ hs _ _ hm := ⟨hs.install env hm, Nat.le_refl _⟩
  constants hs hm v hv := hs.constant _ _ hm v hv
  body a hs _ := hs.body a
  closure hs _ _ hbody := ⟨⟨hs.push_closure hbody, Nat.le_refl _⟩, Store.owns_of_ne (by simp)⟩

/-- Sessions that are given values without promises of other sessions. -/
def ownedTerms : Terms where
  datum _ := True
  value s v := s.Owns v
  step _ := True

theorem owning_admits : owning.regimen.Admits ownedTerms where
  datum _ hs := EvaluationDiscipline.holds_place (fun _ _ _ => Store.owns_of_ne nofun) hs
  value hv := ⟨hv, trivial⟩
  step _ := owning.allows _

theorem owns_place (d : Datum) (s t : Store) : t.Owns (d.place s).1 := by
  refine Store.owns_of_ne fun a h => ?_
  cases d <;> cases h

theorem follows_texts_owned (config : Config) (outputName : String) (texts : List String) :
    (texts.foldl (fun i text => (i.evalText text).2) (Interpreter.new config outputName)).Follows
      config outputName ownedTerms :=
  Interpreter.follows_texts (fun _ => trivial) config outputName
    (fun _ _ _ d _ => ⟨trivial, fun s => owns_place d s _⟩) texts

namespace Machine

variable {c : Context} {T : Terms} {m m' : Machine} {a : Address} {v : Value} {p : Promise}
  {thunk : Value}

theorem within_postponed (env : Option Environment) : postponed.Within env := by
  cases env <;> trivial

theorem pending_postponed (waiting : Pending) : waiting.Within postponed := by
  cases waiting <;> first | exact trivial | exact ⟨trivial, trivial⟩

theorem kept_postponed (m : Machine) : m.Kept postponed where
  store := trivial
  task := ⟨.of_forall (fun _ _ => trivial) fun _ => trivial, within_postponed _⟩
  stack _ _ := ⟨.of_forall (fun _ _ => trivial) fun _ => trivial, pending_postponed _⟩

/-- Whatever comes next at most makes delayed promises, unless it is the step that forces one. -/
theorem postpones_next (h : Next c T m m') :
    m.store.Postpones m'.store ∨ ∃ a v, m.Settles a v ∧ m' = m.step c := by
  let unforced : Terms := { T with step := fun m => ∀ a v, ¬ m.Settles a v }
  have hadmits : postponed.Admits unforced :=
    { datum := fun _ hs => EvaluationDiscipline.holds_place (fun _ _ _ => trivial) hs
      value := fun _ => ⟨trivial, trivial⟩
      step := fun hstep =>
        ⟨fun hsettles => hstep _ _ hsettles, fun _ => trivial, fun _ => trivial⟩ }
  have hkept (hnext : Next c unforced m m') : m.store.Postpones m'.store :=
    (Regimen.next hadmits trivial m.kept_postponed hnext).leads
  cases h with
  | step _ =>
    by_cases hstep : ∃ a v, m.Settles a v
    · obtain ⟨a, v, hsettles⟩ := hstep
      exact .inr ⟨a, v, hsettles, rfl⟩
    · exact .inl (hkept (.step fun a v hsettles => hstep ⟨a, v, hsettles⟩))
  | place hd => exact .inl (hkept (.place hd))
  | form hv h => exact .inl (hkept (.form hv h))
  | refused hv h => exact .inl (hkept (.refused hv h))
  | raw hv => exact .inl (hkept (.raw hv))
  | define name hv => exact .inl (hkept (.define name hv))
  | takeOutput => exact .inl (hkept .takeOutput)

/-- The value that comes back to a delayed promise is what the promise keeps and what its force
gives. -/
theorem Settles.step (h : m.Settles a v) : ∃ k, m.stack = .forcing a :: k ∧ m.step c =
    ⟨.value v, k, m.depth,
      { m.store with promises := m.store.promises.setIfInBounds a (.forced v) }⟩ := by
  obtain ⟨task, stack, d, s⟩ := m
  obtain ⟨rfl, ⟨k, rfl⟩, thunk, hdelayed⟩ := h
  refine ⟨k, rfl, ?_⟩
  have hsettle : settle a v k s = _ := Action.inspect_bind (·.promiseAt a) _ s
  change perform (settle a v k) k d s = _
  rw [perform, hsettle]
  dsimp only at hdelayed
  rw [hdelayed]
  rfl

/-- A promise that was forced keeps its value, and any other value that comes back to it is lost. -/
theorem step_forcing_forced {w : Value} (htask : m.task = .value w)
    {k : Stack} (hstack : m.stack = .forcing a :: k) (h : m.store.promiseAt a = .forced v) :
    m.step c = ⟨.value v, k, m.depth, m.store⟩ := by
  obtain ⟨task, stack, d, s⟩ := m
  obtain rfl : task = .value w := htask
  obtain rfl : stack = .forcing a :: k := hstack
  have hsettle : settle a w k s = _ := Action.inspect_bind (·.promiseAt a) _ s
  change perform (settle a w k) k d s = _
  rw [perform, hsettle]
  dsimp only at h
  rw [h]
  rfl

end Machine

end HygienicScheme
