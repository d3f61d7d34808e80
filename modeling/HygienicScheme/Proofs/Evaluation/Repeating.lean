import HygienicScheme.Proofs.Evaluation.Forms
import HygienicScheme.Proofs.Store.Secluded
import Mathlib.Data.Nat.Find

/-!
# What comes of repeated calls

A procedure that ends by a call of itself goes round by round, each round at the depth of the first
one. So what comes of the call is what comes of its last round.
-/
namespace HygienicScheme

def Run.never : Run := fun _ _ _ => False

def Run.repeats (goes : List Value × Store → List Value × Store → Prop)
    (ends : List Value × Store → Result → Store → Prop) (vs : List Value) : Run := fun s r s' =>
  ∃ last, Relation.ReflTransGen goes (vs, s) last ∧ ends last r s'

/-- The variables of a loop, their first values, and what is done in each round: while the test does
not hold, the commands, and then the steps for the next values. -/
structure Loop where
  vars : List Value
  inits : List Value
  steps : List Value
  test : Value
  results : List Value
  commands : List Value

namespace Machine

open Run

variable {c : Context} {d : Nat} {env : Environment} {s s' t : Store} {r : Result} {f : Value}
  {forms vs ws : List Value} {task : Task} {now next : List Value × Store}

inductive Values (c : Context) (d : Nat) (env : Environment) :
    List Value → Store → List Value → Store → Prop
  | nil {s : Store} : Values c d env [] s [] s
  | cons {form v : Value} {more vs : List Value} {s t u : Store}
      (hform : alone c d (.eval form env) s (.value v) t) (hmore : Values c d env more t vs u) :
      Values c d env (form :: more) s (v :: vs) u

theorem valuesOf_iff {next : List Value → Run} : valuesOf c d env forms next s r s' ↔
    (∃ vs t, Values c d env forms s vs t ∧ next vs t r s') ∨
      valuesOf c d env forms (fun _ => never) s r s' := by
  induction forms generalizing s next with
  | nil =>
    constructor
    · exact fun h => .inl ⟨[], s, .nil, h⟩
    · rintro (⟨vs, t, hvs, h⟩ | h)
      · cases hvs
        exact h
      · exact h.elim
  | cons form more ih =>
    constructor
    · rintro (⟨v, t, hv, h⟩ | ⟨hr, h⟩)
      · rcases ih.mp h with ⟨vs, u, hvs, h⟩ | h
        · exact .inl ⟨v :: vs, u, .cons hv hvs, h⟩
        · exact .inr (.inl ⟨v, t, hv, h⟩)
      · exact .inr (.inr ⟨hr, h⟩)
    · rintro (⟨vs, u, hvs, h⟩ | ⟨v, t, hv, h⟩ | ⟨hr, h⟩)
      · cases hvs with
        | cons hv hvs => exact .inl ⟨_, _, hv, ih.mpr (.inl ⟨_, _, hvs, h⟩)⟩
      · exact .inl ⟨v, t, hv, ih.mpr (.inr h)⟩
      · exact .inr ⟨hr, h⟩

theorem frames_le_alone (h : alone c d task s r s') : s.frames.size ≤ s'.frames.size := by
  obtain ⟨n, d', h⟩ := h
  have hnone : ∀ v : Value, ¬ Reserve.none.Has v := fun _ => Reserve.not_has_none
  have hkept : (⟨task, [], d, s⟩ : Machine).Kept (secluding .none).regimen :=
    ⟨.none s, ⟨.of_forall (fun _ => hnone) hnone, by cases task <;> trivial⟩, by simp⟩
  obtain ⟨-, hspares⟩ := (secluding .none).iterate hkept (c := c) n
  rw [h] at hspares
  exact hspares.frames_le

/-- A call that goes on from round to round, or ends, comes to what its last round comes to. The
frames that are made on the way show that there is one. -/
theorem repeats_iff {P : List Value × Store → Prop}
    {goes : List Value × Store → List Value × Store → Prop}
    {ends : List Value × Store → Result → Store → Prop}
    (hround : ∀ now, P now → ∀ r s', alone c d (.apply f now.1) now.2 r s' ↔
      (∃ next, goes now next ∧ alone c d (.apply f next.1) next.2 r s') ∨ ends now r s')
    (hgoes : ∀ now next, P now → goes now next →
      P next ∧ now.2.frames.size < next.2.frames.size) (hs : P (vs, s)) :
    alone c d (.apply f vs) s r s' ↔ repeats goes ends vs s r s' := by
  constructor
  · intro h
    generalize hleft : s'.frames.size - s.frames.size = left
    induction left using Nat.strong_induction_on generalizing vs s with
    | _ left ih =>
      rcases (hround (vs, s) hs r s').mp h with ⟨⟨ws, t⟩, hnext, hrest⟩ | hlast
      · obtain ⟨ht, hgrows⟩ := hgoes _ _ hs hnext
        have hle := frames_le_alone hrest
        obtain ⟨last, hlater, hlast⟩ := ih _ (by dsimp only at hgrows hle; omega) ht hrest rfl
        exact ⟨last, .head hnext hlater, hlast⟩
      · exact ⟨_, .refl, hlast⟩
  · rintro ⟨last, hlater, hlast⟩
    have hall : ∀ now, Relation.ReflTransGen goes now last → P now →
        alone c d (.apply f now.1) now.2 r s' := by
      intro now hnow
      induction hnow using Relation.ReflTransGen.head_induction_on with
      | refl => exact fun hs => (hround _ hs r s').mpr (.inr hlast)
      | head hnext _ ih =>
        exact fun hs => (hround _ hs r s').mpr (.inl ⟨_, hnext, ih (hgoes _ _ hs hnext).1⟩)
    exact hall _ hlater hs

def Calls (f : Value) (m : Machine) : Prop := ∃ vs d t, m = ⟨.apply f vs, [], d, t⟩

abbrev entering (f : Value) (d : Nat) (now : List Value × Store) : Machine :=
  ⟨.apply f now.1, [], d, now.2⟩

def Again (c : Context) (d : Nat) (f : Value) (now next : List Value × Store) : Prop :=
  ∃ n, (step c)^[n + 1] (entering f d now) = entering f d next ∧
    ∀ i < n, ¬ Calls f ((step c)^[i + 1] (entering f d now))

def Finally (c : Context) (d : Nat) (f : Value) (now : List Value × Store) (r : Result)
    (s' : Store) : Prop :=
  ∃ n d', (step c)^[n] (entering f d now) = ⟨r.task, [], d', s'⟩ ∧
    ∀ i < n, ¬ Calls f ((step c)^[i + 1] (entering f d now))

theorem depth_of_calls {n d' : Nat}
    (h : (step c)^[n] (entering f d now) = entering f d' next) : d' = d := by
  have hstart : Balanced d (entering f d now) := rfl
  have hend := hstart.iterate (c := c) n
  rw [h] at hend
  exact hend

/-- Whatever the procedure does, if it calls itself in tail position then what comes of the call is
what comes of the last such call, at the depth of the first. -/
theorem repeats_calls :
    alone c d (.apply f vs) s r s' ↔ repeats (Again c d f) (Finally c d f) vs s r s' := by
  constructor
  · rintro ⟨n, d', h⟩
    induction n using Nat.strong_induction_on generalizing vs s with
    | _ n ih =>
      by_cases hcalls : ∃ i, i < n ∧ Calls f ((step c)^[i + 1] (entering f d (vs, s)))
      · classical
        obtain ⟨hi, ws, d₁, t, hnext⟩ := Nat.find_spec hcalls
        have hfirst : ∀ j < Nat.find hcalls, ¬ Calls f ((step c)^[j + 1] (entering f d (vs, s))) :=
          fun j hj hcall => Nat.find_min hcalls hj ⟨Nat.lt_trans hj hi, hcall⟩
        generalize Nat.find hcalls = i at hi hnext hfirst
        obtain rfl := depth_of_calls (show _ = entering f d₁ (ws, t) from hnext)
        have hrest : (step c)^[n - (i + 1)] (entering f d₁ (ws, t)) = ⟨r.task, [], d', s'⟩ := by
          rw [show entering f d₁ (ws, t) = _ from hnext.symm, ← Function.iterate_add_apply,
            Nat.sub_add_cancel hi]
          exact h
        obtain ⟨last, hlater, hlast⟩ := ih _ (by omega) hrest
        exact ⟨last, .head ⟨i, hnext, hfirst⟩ hlater, hlast⟩
      · push Not at hcalls
        exact ⟨_, .refl, n, d', h, hcalls⟩
  · rintro ⟨last, hlater, n, d', h, -⟩
    have hlast : Comes c (entering f d last) r s' := ⟨n, d', h⟩
    have hall : ∀ now, Relation.ReflTransGen (Again c d f) now last →
        Comes c (entering f d now) r s' := by
      intro now hnow
      induction hnow using Relation.ReflTransGen.head_induction_on with
      | refl => exact hlast
      | head hnext _ ih =>
        obtain ⟨i, hnext, -⟩ := hnext
        exact (comes_later ⟨_, hnext⟩).mp ih
    exact hall _ hlater

end Machine

namespace Loop

open Machine Run

variable {c : Context} {d : Nat} {env : Environment} {s s' t : Store} {r : Result} {L : Loop}
  {xs : List Symbol} {vs : List Value} {now next : List Value × Store}

def turn (c : Context) (d : Nat) (L : Loop) (env : Environment) (next : List Value → Run) : Run :=
  valuesOf c d env L.commands fun _ => valuesOf c d env L.steps next

def round (c : Context) (d : Nat) (L : Loop) (xs : List Symbol) (env : Environment)
    (vs : List Value) (next : List Value → Run) : Run :=
  .doing (liftM (Build.child env (xs.zip vs))) fun env' =>
    (alone c d (.eval L.test env')).andThen fun v =>
      if v.isTrue then inOrder c d env' L.results else L.turn c d env' next

def Turns (c : Context) (d : Nat) (L : Loop) (env : Environment) (s : Store) (ws : List Value)
    (t : Store) : Prop :=
  ∃ us u, Values c d env L.commands s us u ∧ Values c d env L.steps u ws t

def GoesOn (c : Context) (d : Nat) (L : Loop) (xs : List Symbol) (env : Environment)
    (now next : List Value × Store) : Prop :=
  ∃ v t, alone c d (.eval L.test ⟨now.2.frames.size, env.chain⟩)
      { now.2 with frames := now.2.frames.push ⟨xs.zip now.1, []⟩ } (.value v) t ∧
    v.isTrue = false ∧ L.Turns c d ⟨now.2.frames.size, env.chain⟩ t next.1 next.2

def Ends (c : Context) (d : Nat) (L : Loop) (xs : List Symbol) (env : Environment)
    (now : List Value × Store) : Result → Store → Prop :=
  L.round c d xs env now.1 (fun _ => never) now.2

theorem turn_iff {goes : List Value → Run} : L.turn c d env goes s r s' ↔
    (∃ ws t, L.Turns c d env s ws t ∧ goes ws t r s') ∨
      L.turn c d env (fun _ => never) s r s' := by
  constructor
  · intro h
    rcases valuesOf_iff.mp h with ⟨us, u, hus, hsteps⟩ | h
    · rcases valuesOf_iff.mp hsteps with ⟨ws, t, hws, h⟩ | h
      · exact .inl ⟨ws, t, ⟨us, u, hus, hws⟩, h⟩
      · exact .inr (valuesOf_iff.mpr (.inl ⟨us, u, hus, h⟩))
    · exact .inr (valuesOf_iff.mpr (.inr h))
  · rintro (⟨ws, t, ⟨us, u, hus, hws⟩, h⟩ | h)
    · exact valuesOf_iff.mpr (.inl ⟨us, u, hus, valuesOf_iff.mpr (.inl ⟨ws, t, hws, h⟩)⟩)
    · rcases valuesOf_iff.mp h with ⟨us, u, hus, hsteps⟩ | h
      · rcases valuesOf_iff.mp hsteps with ⟨ws, t, hws, h⟩ | h
        · exact h.elim
        · exact valuesOf_iff.mpr (.inl ⟨us, u, hus, valuesOf_iff.mpr (.inr h)⟩)
      · exact valuesOf_iff.mpr (.inr h)

theorem round_iff {goes : List Value → Run} : L.round c d xs env now.1 goes now.2 r s' ↔
    (∃ next, L.GoesOn c d xs env now next ∧ goes next.1 next.2 r s') ∨
      L.Ends c d xs env now r s' := by
  unfold Ends round
  rw [doing_lift, doing_lift]
  have hbranch : ∀ {v : Value} {t : Store} {R : Run} {env : Environment},
      (if v.isTrue then R else L.turn c d env goes) t r s' ↔
        (v.isTrue = false ∧ ∃ ws u, L.Turns c d env t ws u ∧ goes ws u r s') ∨
          (if v.isTrue then R else L.turn c d env fun _ => never) t r s' := by
    intro v t R env
    cases v.isTrue with
    | true => simp
    | false => simpa using turn_iff
  constructor
  · rintro (⟨v, t, hv, h⟩ | h)
    · rcases hbranch.mp h with ⟨hfalse, ws, u, hturns, h⟩ | h
      · exact .inl ⟨(ws, u), ⟨v, t, hv, hfalse, hturns⟩, h⟩
      · exact .inr (.inl ⟨v, t, hv, h⟩)
    · exact .inr (.inr h)
  · rintro (⟨⟨ws, u⟩, ⟨v, t, hv, hfalse, hturns⟩, h⟩ | ⟨v, t, hv, h⟩ | h)
    · exact .inl ⟨v, t, hv, hbranch.mpr (.inl ⟨hfalse, ws, u, hturns, h⟩)⟩
    · exact .inl ⟨v, t, hv, hbranch.mpr (.inr h)⟩
    · exact .inr h

end Loop

end HygienicScheme
