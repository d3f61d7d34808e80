import HygienicScheme.Action
import HygienicScheme.Procedure

/-!
# With which errors a computation fails

A text is read before anything is evaluated, and the depth is looked at only where one evaluation
begins inside another. Reports about text and about the depth come from there alone. All other
errors are ordinary, and ordinary errors are all that the rest of the program fails with. So fail
bindings and closures: an identifier may be unbound or bound twice, a parameter list may be
malformed, and a call may have too few or too many arguments.
-/
namespace HygienicScheme

def Error.Ordinary : Error → Prop
  | .parse _ | .eval (.depthLimit _) => False
  | _ => True

def Throws {α : Type} (x : Except Error α) (E : Error → Prop) : Prop := ∀ e, x = .error e → E e

namespace Throws

variable {α β : Type} {E : Error → Prop}

theorem ok (a : α) : Throws (.ok a) E := fun _ h => nomatch h

theorem error {e : Error} (he : E e) : Throws (.error e : Except Error α) E := by
  intro _ h
  cases h
  exact he

theorem bind {x : Except Error α} {f : α → Except Error β} (hx : Throws x E)
    (hf : ∀ a, Throws (f a) E) : Throws (x >>= f) E := by
  cases x with
  | ok a => exact hf a
  | error e => exact error (hx e rfl)

theorem map {x : Except Error α} (f : α → β) (hx : Throws x E) : Throws (x.map f) E := by
  cases x with
  | ok a => exact ok (f a)
  | error e => exact error (hx e rfl)

theorem mapM {f : α → Except Error β} (hf : ∀ a, Throws (f a) E) (as : List α) :
    Throws (as.mapM f) E := by
  induction as with
  | nil => exact ok []
  | cons a as ih =>
    rw [List.mapM_cons]
    exact (hf a).bind fun b => ih.bind fun bs => ok (b :: bs)

end Throws

namespace Action

def FailsWith {α : Type} (x : Action α) (E : Error → Prop) : Prop :=
  ∀ s e t, x s = .error e t → E e

namespace FailsWith

variable {α β : Type} {E : Error → Prop}

theorem mono {E' : Error → Prop} {x : Action α} (h : x.FailsWith E) (hE : ∀ e, E e → E' e) :
    x.FailsWith E' := fun s e t ht => hE e (h s e t ht)

theorem pure (a : α) : (Pure.pure a : Action α).FailsWith E := fun _ _ _ h => nomatch h

theorem lift (b : Build α) : (liftM b : Action α).FailsWith E := fun _ _ _ h => nomatch h

theorem get : (MonadState.get : Action Store).FailsWith E := fun _ _ _ h => nomatch h

theorem modifyGet (f : Store → α × Store) : (MonadState.modifyGet f : Action α).FailsWith E :=
  fun _ _ _ h => nomatch h

theorem inspect (look : Store → α) : (Action.inspect look).FailsWith E := fun _ _ _ h => nomatch h

theorem inspect_bind {look : Store → α} {f : α → Action β} (h : ∀ s, (f (look s)).FailsWith E) :
    (Action.inspect look >>= f).FailsWith E := fun s e t ht => h s s e t ht

theorem change (f : Store → Store) : (Action.change f).FailsWith E := fun _ _ _ h => nomatch h

theorem throw {e : Error} (he : E e) : (MonadExcept.throw e : Action α).FailsWith E := by
  intro s _ t h
  cases h
  exact he

theorem bind {x : Action α} {f : α → Action β} (hx : x.FailsWith E) (hf : ∀ a, (f a).FailsWith E) :
    (x >>= f).FailsWith E := by
  intro s e t h
  change EStateM.bind x f s = .error e t at h
  unfold EStateM.bind at h
  cases hxs : x s with
  | ok a s' =>
    rw [hxs] at h
    exact hf a s' e t h
  | error e' s' =>
    rw [hxs] at h
    cases h
    exact hx s e t hxs

theorem except {x : Except Error α} (hx : Throws x E) : (liftM x : Action α).FailsWith E := by
  cases x with
  | ok a => exact pure a
  | error e => exact throw (hx e rfl)

theorem ended (he : E .endless) (a : Option α) : (Action.ended a).FailsWith E := by
  cases a with
  | some a => exact pure a
  | none => exact throw he

theorem mapM {f : α → Action β} {as : List α} (hf : ∀ a ∈ as, (f a).FailsWith E) :
    (as.mapM f).FailsWith E := by
  induction as with
  | nil => exact pure []
  | cons a as ih =>
    obtain ⟨ha, hmore⟩ := List.forall_mem_cons.mp hf
    rw [List.mapM_cons]
    exact ha.bind fun b => (ih hmore).bind fun bs => pure (b :: bs)

theorem foldlM {f : β → α → Action β} (hf : ∀ b a, (f b a).FailsWith E) (b : β) (as : List α) :
    (as.foldlM f b).FailsWith E := by
  induction as generalizing b with
  | nil => exact pure b
  | cons a as ih =>
    rw [List.foldlM_cons]
    exact (hf b a).bind fun c => ih c

end FailsWith

end Action

/-! ### Bindings and closures -/

namespace Ordinary

open HygienicScheme.Action
open Error (Ordinary)

theorem lookup (env : Environment) (x : Symbol) : (Action.lookup env x).FailsWith Ordinary := by
  refine (FailsWith.inspect _).bind fun found => ?_
  cases found with
  | some v => exact .pure v
  | none => exact .throw trivial

theorem defineBinding (env : Environment) (x : Symbol) (v : Value) :
    (Action.define env x v).FailsWith Ordinary := by
  refine (FailsWith.inspect _).bind fun bound => ?_
  split
  · exact .throw trivial
  · exact .change _

theorem assign (env : Environment) (x : Symbol) (v : Value) :
    (Action.assign env x v).FailsWith Ordinary := by
  refine (FailsWith.inspect _).bind fun place => ?_
  cases place with
  | some place => exact .change _
  | none => exact .throw trivial

theorem addBinding (bound : List (Symbol × Value)) (x : Symbol) (v : Value) :
    Throws (HygienicScheme.addBinding bound x v) Ordinary := by
  unfold HygienicScheme.addBinding
  split
  · exact .error trivial
  · exact .ok _

theorem params (s : Store) (seen : List Symbol) (vs : List Value) :
    Throws (Procedure.params s seen vs) Ordinary := by
  fun_induction Procedure.params s seen vs with
  | case1 => exact .ok _
  | case2 => exact .error trivial
  | case3 _ _ _ _ ih => exact ih
  | case4 => exact .error trivial

theorem restParam (s : Store) (params : List Symbol) (v : Value) :
    Throws (Procedure.restParam s params v) Ordinary := by
  unfold Procedure.restParam
  split
  · exact .ok _
  · split
    · exact .error trivial
    · exact .ok _
  · exact .error trivial

theorem formals (s : Store) (v : Value) : Throws (Procedure.formals s v) Ordinary := by
  unfold Procedure.formals
  split
  · exact .error trivial
  · exact (params _ _ _).bind fun _ => (restParam _ _ _).bind fun _ => .ok _

theorem make (v : Value) (body : List Value) (env : Environment) (name : Option String) :
    (Procedure.make v body env name).FailsWith Ordinary := by
  unfold Procedure.make
  split
  · exact .throw trivial
  · exact .inspect_bind fun s => (FailsWith.except (formals s v)).bind fun _ => .lift _

theorem bindAll (bound pairs : List (Symbol × Value)) :
    Throws (Procedure.bindAll bound pairs) Ordinary := by
  induction pairs generalizing bound with
  | nil => exact .ok _
  | cons p more ih => exact (addBinding _ _ _).bind fun bound => ih bound

theorem bind (c : Closure) (args : List Value) : (Procedure.bind c args).FailsWith Ordinary := by
  unfold Procedure.bind
  split
  · refine (FailsWith.except (bindAll _ _)).bind fun bound => ?_
    cases c.rest with
    | none => exact .lift _
    | some rest =>
      exact (FailsWith.lift _).bind fun extra => (FailsWith.except (addBinding _ _ _)).bind
        fun _ => .lift _
  · exact .throw trivial

end Ordinary

end HygienicScheme
