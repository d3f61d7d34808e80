import HygienicScheme.Procedure
import HygienicScheme.Proofs.Discipline.Basic
import Mathlib.Data.List.Nodup

/-!
# Closures that can be called

A parameter list is read one identifier after the other, and one that came before is refused. So
the identifiers of a closure are all different, as symbols with their stamps, and it has a body.
-/
namespace HygienicScheme

namespace Closure

def formals (c : Closure) : List Symbol := c.params ++ c.rest.toList

def Refuses (c : Closure) (count : Nat) : Prop :=
  count < c.params.length ∨ c.rest = none ∧ count ≠ c.params.length

def bindings (c : Closure) (args : List Value) (extra : Value) : List (Symbol × Value) :=
  c.params.zip args ++ c.rest.toList.map (·, extra)

structure WellFormed (c : Closure) : Prop where
  distinct : c.formals.Nodup
  nonempty : c.body ≠ []

end Closure

theorem addBinding_new {bound : List (Symbol × Value)} {x : Symbol} {v : Value}
    (hx : x ∉ bound.map Prod.fst) : addBinding bound x v = .ok (bound ++ [(x, v)]) := by
  have hany : (bound.any fun b => b.1 == x) = false := by
    rw [List.any_eq_false]
    intro b hb heq
    exact hx (beq_iff_eq.mp heq ▸ List.mem_map_of_mem hb)
  rw [addBinding, hany, if_neg Bool.false_ne_true]

namespace Procedure

variable {s : Store} {seen xs : List Symbol} {items : List Value} {v : Value} {rest : Option Symbol}

theorem params_nodup (hseen : seen.Nodup) (h : params s seen items = .ok xs) : xs.Nodup := by
  induction items generalizing seen with
  | nil =>
    cases h
    exact List.nodup_reverse.mpr hseen
  | cons v more ih =>
    cases v with
    | symbol x =>
      rw [params] at h
      split at h
      · cases h
      · rename_i hx
        have hnew : x ∉ seen := by simpa using hx
        exact ih (List.nodup_cons.mpr ⟨hnew, hseen⟩) h
    | _ => cases h

theorem restParam_new (h : restParam s xs v = .ok rest) : ∀ x ∈ rest, x ∉ xs := by
  unfold restParam at h
  split at h
  · cases h
    simp
  · split at h
    · cases h
    · rename_i hx
      cases h
      simpa using hx
  · cases h

theorem formals_nodup (h : formals s v = .ok (xs, rest)) : (xs ++ rest.toList).Nodup := by
  unfold formals at h
  split at h
  · cases h
  · rename_i items tail _
    cases hparams : params s [] items with
    | error e =>
      rw [hparams] at h
      cases h
    | ok required =>
      cases hrest : restParam s required tail with
      | error e =>
        rw [hparams] at h
        change (restParam s required tail >>= _) = _ at h
        rw [hrest] at h
        cases h
      | ok last =>
        rw [hparams] at h
        change (restParam s required tail >>= _) = _ at h
        rw [hrest] at h
        cases h
        refine List.nodup_append.mpr ⟨params_nodup List.nodup_nil hparams, ?_, ?_⟩
        · cases rest <;> simp
        · rintro x hx y hy rfl
          exact restParam_new hrest x (Option.mem_toList.mp hy) hx

theorem bindAll_distinct {bound new : List (Symbol × Value)}
    (h : ((bound ++ new).map Prod.fst).Nodup) : bindAll bound new = .ok (bound ++ new) := by
  induction new generalizing bound with
  | nil => rw [List.append_nil, bindAll]
  | cons entry new ih =>
    obtain ⟨x, v⟩ := entry
    have hrest : (((bound ++ [(x, v)]) ++ new).map Prod.fst).Nodup := by simpa using h
    rw [bindAll, addBinding_new]
    · exact (ih hrest).trans (by simp)
    · rw [List.map_append, List.nodup_append] at h
      intro hx
      exact h.2.2 x hx x (by simp) rfl

variable {c : Closure} {args : List Value} {count : Nat}

theorem accepts_iff : (arity c).accepts count = true ↔ ¬ c.Refuses count := by
  unfold arity Closure.Refuses
  cases c.rest with
  | none =>
    simp only [Arity.accepts, beq_iff_eq, true_and]
    omega
  | some rest => simp [Arity.accepts]

theorem bind_distinct (hdistinct : c.formals.Nodup) (haccepts : ¬ c.Refuses args.length) :
    bind c args s =
      let extra := Build.list (args.drop c.params.length) s
      (liftM (Build.child c.env (c.bindings args extra.1)) : Action Environment) extra.2 := by
  have hlength : c.params.length ≤ args.length := by
    unfold Closure.Refuses at haccepts
    omega
  have hnames : (c.params.zip args).map Prod.fst = c.params := List.map_fst_zip hlength
  have hzip : bindAll [] (c.params.zip args) = .ok (c.params.zip args) := by
    refine bindAll_distinct ?_
    rw [List.nil_append, hnames]
    exact (List.nodup_append.mp hdistinct).1
  rw [bind, if_pos (accepts_iff.mpr haccepts), hzip, Action.ok_bind]
  unfold Closure.bindings
  unfold Closure.Refuses at haccepts
  unfold Closure.formals at hdistinct
  cases hrest : c.rest with
  | none =>
    have hextra : args.drop c.params.length = [] := by
      refine List.drop_eq_nil_of_le ?_
      simp only [hrest, true_and] at haccepts
      omega
    rw [hextra]
    exact congrArg (fun bs => (liftM (Build.child c.env bs) : Action Environment) s)
      (List.append_nil _).symm
  | some x =>
    have hx : x ∉ (c.params.zip args).map Prod.fst := by
      rw [hnames]
      intro hmem
      rw [hrest] at hdistinct
      exact (List.nodup_append.mp hdistinct).2.2 x hmem x (by simp) rfl
    have hadd (extra : Value) : addBinding (c.params.zip args) x extra =
        .ok (c.params.zip args ++ [(x, extra)]) := addBinding_new hx
    simp only [hadd]
    rfl

end Procedure

end HygienicScheme
