import HygienicScheme.Proofs.Primitives.Agreement

/-!
# Which calls of primitives panic

A call that its arity accepts does what the primitive does, and does not panic, but for one case:
`vector-set!` holds its vector for writing while it looks at the index, so an index that is not an
integer and whose text shows the vector itself stops the program. Every other primitive shows its
arguments before it borrows a cell for writing, or while it holds cells for reading only.
-/
namespace HygienicScheme

namespace Guarded

open HygienicScheme.Action

theorem setPair_apply (procedure : String) (update : Value → Pair → Pair) (w v : Value)
    (s : Store) : setPair procedure update [w, v] .none s =
      .ok ((do
        Listing.setPair (update v) (← Argument.pair procedure w)
        return .unspecified : Action Value) s) := by
  cases w <;> rfl

theorem fill_apply (memory : Nat) (w v : Value) (s : Store) :
    vectorial memory .fill [w, v] .none s = .ok (Vectorial.run .fill [w, v] s) := by
  cases w <;> rfl

def setHeld (a : Address) (k v : Value) : Guarded Value := do
  let i ← index "vector-set!" k
  let length ← look fun s => (s.vectorAt a).size
  if i < length then
    change fun s => { s with vectors := s.vectors.modify a fun items => items.setIfInBounds i v }
    return .unspecified
  else throw (.range (.vectorIndex "vector-set!" i length))

theorem setVector_eq (a : Address) (k v : Value) (s : Store) :
    setVector [.vector a, k, v] .none s = setHeld a k v (Held.none.write (.vector a)) s := rfl

theorem mayShow_write (a : Address) (p : Store.Printout) :
    (Held.none.write (.vector a)).mayShow p = !p.vectors.contains a := by
  simp [Held.mayShow, Held.write, Held.none]

theorem vectors_print_int (s : Store) (n : Int64) :
    (s.print .write (.int n)).vectors = [] := by
  simp [Store.print, Store.printNode, Store.printBudget, Store.Printout.add, Store.Printout.spend]

theorem setHeld_int (a : Address) (n : Int64) (v : Value) (s : Store) :
    setHeld a (.int n) v (Held.none.write (.vector a)) s =
      .ok (Routine.run (.vectorial .set) [.vector a, .int n, v] s) := by
  have hindex : index "vector-set!" (.int n) (Held.none.write (.vector a)) s =
      .ok (Vectorial.heldIndex a (.int n) s) := by
    have hheld : Vectorial.heldIndex a (.int n) = Argument.index "vector-set!" (.int n) := rfl
    unfold index check
    rw [hheld, mayShow_write, vectors_print_int]
    cases Argument.index "vector-set!" (.int n) s <;> rfl
  rw [Routine.run_set, setHeld, bind_apply, hindex]
  cases hheld : Vectorial.heldIndex a (.int n) s with
  | error e t => rw [Action.bind_error hheld]
  | ok i t =>
    rw [Action.bind_ok hheld, inspect_bind]
    change (if i < (t.vectorAt a).size then _ else _ : Guarded Value) _ t = _
    split
    · rfl
    · rfl

theorem setHeld_other (a : Address) {k : Value} (hk : ∀ n, k ≠ .int n) (v : Value) (s : Store) :
    setHeld a k v (Held.none.write (.vector a)) s =
      if (s.print .write k).vectors.contains a then .error .borrow
      else .ok (Routine.run (.vectorial .set) [.vector a, k, v] s) := by
  have hreject : Argument.index "vector-set!" k s =
      .error (.type (.argument "vector-set!" "integer" k.typeName (s.writeText k))) s := by
    cases k with
    | int n => exact absurd rfl (hk n)
    | _ => rfl
  have hheld : Vectorial.heldIndex a k s = if (s.print .write k).vectors.contains a then
      .error .conflict s
      else .error (.type (.argument "vector-set!" "integer" k.typeName (s.writeText k))) s := by
    unfold Vectorial.heldIndex
    split
    · exact absurd rfl (hk _)
    · rw [inspect_bind]
      split <;> rfl
  have hindex : index "vector-set!" k (Held.none.write (.vector a)) s =
      if (s.print .write k).vectors.contains a then .error .borrow
      else .ok (Vectorial.heldIndex a k s) := by
    unfold index check
    rw [hreject, hheld]
    dsimp only
    rw [mayShow_write]
    cases (s.print .write k).vectors.contains a <;> rfl
  rw [Routine.run_set, setHeld, bind_apply, hindex]
  by_cases hshown : (s.print .write k).vectors.contains a
  · rw [if_pos hshown, if_pos hshown]
  · rw [if_neg hshown] at hheld
    rw [if_neg hshown, if_neg hshown, hheld, Action.bind_error hheld]

end Guarded

namespace Routine

open Guarded

/-- A `vector-set!` whose index is no integer and is shown with the very vector. -/
def ShowsHeld (s : Store) : Routine → List Value → Prop
  | .vectorial .set, [.vector a, k, _] => (∀ n, k ≠ .int n) ∧ a ∈ (s.print .write k).vectors
  | _, _ => False

theorem call_set (memory : Nat) (w k v : Value) (s : Store) :
    (ShowsHeld s (.vectorial .set) [w, k, v] →
        call memory (.vectorial .set) [w, k, v] .none s = .error .borrow) ∧
      (¬ ShowsHeld s (.vectorial .set) [w, k, v] →
        call memory (.vectorial .set) [w, k, v] .none s =
          .ok (run (.vectorial .set) [w, k, v] s)) := by
  cases w with
  | vector a =>
    have hcall : call memory (.vectorial .set) [.vector a, k, v] .none s =
        setHeld a k v (Held.none.write (.vector a)) s := setVector_eq a k v s
    rw [hcall]
    by_cases hk : ∃ n, k = .int n
    · obtain ⟨n, rfl⟩ := hk
      exact ⟨fun h => absurd rfl (h.1 n), fun _ => setHeld_int a n v s⟩
    · have hk : ∀ n, k ≠ .int n := fun n h => hk ⟨n, h⟩
      rw [setHeld_other a hk]
      constructor
      · intro h
        rw [if_pos (List.contains_iff_mem.mpr h.2)]
      · intro h
        rw [if_neg fun hmem => h ⟨hk, List.contains_iff_mem.mp hmem⟩]
  | _ => exact ⟨nofun, fun _ => rfl⟩

theorem agrees_call (memory : Nat) {r : Routine} {args : List Value} (hr : r.writes = false)
    (hcount : r.arity.accepts args.length)
    (hfits : r = .vectorial .make → ∀ n more, args = .int n :: more → n.toInt ≤ memory) :
    Agrees (r.call memory args) (r.run args) := by
  cases r with
  | numeric op => exact agrees_numeric op hcount
  | listing op => exact agrees_listing op hr hcount
  | predicate op => exact agrees_predicate op hcount
  | textual op => exact agrees_textual op hcount
  | vectorial op => exact agrees_vectorial memory op hr hcount fun h => hfits (by rw [h])
  | makePromise =>
    obtain ⟨v, rfl⟩ := exists_of_one hcount
    refine .item rfl ?_
    unfold run
    dsimp only
    split
    · exact .lift _
    · exact agrees_reject _ _ _
  | error =>
    refine (Agrees.mapM (fun v => ?_) args).bind fun parts => .throw _
    cases v with
    | string s => exact .pure _
    | _ => exact .written _

/-- The call of a primitive panics in one case only. In all others it does what the primitive does,
so if it fails it gives back an error. -/
theorem call_panics_iff (memory : Nat) (r : Routine) (args : List Value) (s : Store)
    (hcount : r.arity.accepts args.length)
    (hfits : r = .vectorial .make → ∀ n more, args = .int n :: more → n.toInt ≤ memory) :
    (r.ShowsHeld s args → r.call memory args .none s = .error .borrow) ∧
      (¬ r.ShowsHeld s args → r.call memory args .none s = .ok (r.run args s)) := by
  cases hr : r.writes with
  | false =>
    have hagrees := agrees_call memory hr hcount hfits .none s rfl
    have hshows : ¬ r.ShowsHeld s args := by
      unfold ShowsHeld
      split
      · cases hr
      · exact id
    exact ⟨fun h => absurd h hshows, fun _ => hagrees⟩
  | true =>
    cases r with
    | listing op =>
      cases op with
      | setCar | setCdr =>
        obtain ⟨w, v, rfl⟩ := exists_of_two hcount
        exact ⟨nofun, fun _ => setPair_apply _ _ w v s⟩
      | _ => cases hr
    | vectorial op =>
      cases op with
      | set =>
        obtain ⟨w, k, v, rfl⟩ := exists_of_three hcount
        exact call_set memory w k v s
      | fill =>
        obtain ⟨w, v, rfl⟩ := exists_of_two hcount
        exact ⟨nofun, fun _ => fill_apply memory w v s⟩
      | _ => cases hr
    | _ => cases hr

def twoNumbers : Store := { Store.empty with vectors := #[#[.int 1, .int 2]] }

theorem call_panics_iff_each :
    call 1 (.vectorial .set) [.vector 0, .vector 0, .int 1] .none twoNumbers = .error .borrow ∧
      call 1 (.vectorial .ref) [.vector 0, .vector 0] .none twoNumbers =
        .ok (run (.vectorial .ref) [.vector 0, .vector 0] twoNumbers) ∧
      call 1 (.vectorial .make) [.int 1] .none twoNumbers =
        .ok (run (.vectorial .make) [.int 1] twoNumbers) := by
  have hshown : 0 ∈ (twoNumbers.print .write (.vector 0)).vectors := by
    simp [twoNumbers, Store.print, Store.printNode, Store.printItems, Store.vectorAt,
      Store.printBudget, Store.Printout.add, Store.Printout.spend, Store.Printout.enter]
  have hset := call_panics_iff 1 (.vectorial .set) [.vector 0, .vector 0, .int 1] twoNumbers rfl
    (fun h => by cases h)
  have href := call_panics_iff 1 (.vectorial .ref) [.vector 0, .vector 0] twoNumbers rfl
    (fun h => by cases h)
  have hmake := call_panics_iff 1 (.vectorial .make) [.int 1] twoNumbers rfl fun _ n more h => by
    cases h
    decide
  exact ⟨hset.1 ⟨by simp, hshown⟩, href.2 id, hmake.2 id⟩

end Routine

end HygienicScheme
