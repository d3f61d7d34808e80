import HygienicScheme.Proofs.Depth.TailCalls
import HygienicScheme.Proofs.Discipline.Basic
import HygienicScheme.Proofs.Store.Circles

/-!
# What takes lists

A chain of pairs is split wherever it ends, and all that asks for a proper list takes exactly the
chains that end in the empty list. It refuses every other value, circular lists and lists with a
dotted tail among them, and leaves the store as it is. Only the last argument of `append` is no
list that is asked for: it becomes the tail of the result, whatever it is.
-/
namespace HygienicScheme

open Store (properList?_eq_some)

def Store.Proper (s : Store) (v : Value) : Prop := ∃ items, s.Chain v items .null

theorem Store.properList?_eq_none {s : Store} {v : Value} (h : ¬ s.Proper v) :
    s.properList? v = none :=
  Option.eq_none_iff_forall_ne_some.mpr fun items hitems => h ⟨items, properList?_eq_some.mp hitems⟩

namespace Argument

variable {s : Store} {v : Value} {items : List Value} {procedure : String}

theorem list_proper (h : s.Chain v items .null) : list procedure v s = .ok items s := by
  rw [list, Action.properList?, Action.inspect_bind, properList?_eq_some.mpr h]
  rfl

def complaint (s : Store) (procedure : String) (v : Value) : Error :=
  .type (.argument procedure "proper list" v.typeName (s.writeText v))

theorem list_improper (h : ¬ s.Proper v) :
    list procedure v s = .error (complaint s procedure v) s := by
  rw [list, Action.properList?, Action.inspect_bind, Store.properList?_eq_none h]
  rfl

end Argument

namespace Listing

variable {s : Store} {v : Value} {before after : List Value}

theorem exists_chains {vs : List Value} (h : ∀ v ∈ vs, s.Proper v) :
    ∃ lists, List.Forall₂ (fun v items => s.Chain v items .null) vs lists := by
  induction vs with
  | nil => exact ⟨[], .nil⟩
  | cons v more ih =>
    obtain ⟨⟨items, hv⟩, hmore⟩ := List.forall_mem_cons.mp h
    obtain ⟨lists, hlists⟩ := ih hmore
    exact ⟨items :: lists, .cons hv hlists⟩

theorem appendItems_chains {vs : List Value} {lists : List (List Value)}
    (h : List.Forall₂ (fun v items => s.Chain v items .null) vs lists) :
    appendItems vs s = .ok lists.flatten s := by
  induction h with
  | nil => rfl
  | cons hv _ ih =>
    rw [appendItems, Action.bind_ok (Argument.list_proper hv), Action.bind_ok ih]
    rfl

theorem appendItems_improper (h : ∀ w ∈ before, s.Proper w) (hv : ¬ s.Proper v) :
    appendItems (before ++ v :: after) s = .error (Argument.complaint s "append" v) s := by
  induction before with
  | nil => rw [List.nil_append, appendItems, Action.bind_error (Argument.list_improper hv)]
  | cons w more ih =>
    obtain ⟨⟨items, hw⟩, hmore⟩ := List.forall_mem_cons.mp h
    rw [List.cons_append, appendItems, Action.bind_ok (Argument.list_proper hw),
      Action.bind_error (ih hmore)]

theorem run_append (vs : List Value) (last : Value) : run .append (vs ++ [last]) =
    appendItems vs >>= fun items => liftM (Build.listWithTail items last) := by
  simp only [run, List.getLast?_concat, List.dropLast_concat]

theorem run_append_chains {vs : List Value} {lists : List (List Value)} (last : Value)
    (h : List.Forall₂ (fun v items => s.Chain v items .null) vs lists) :
    run .append (vs ++ [last]) s = .ok (Build.listWithTail lists.flatten last s).1
      (Build.listWithTail lists.flatten last s).2 := by
  rw [run_append, Action.bind_ok (appendItems_chains h)]
  rfl

theorem run_reverse {items : List Value} (h : s.Chain v items .null) :
    run .reverse [v] s = .ok (Build.list items.reverse s).1 (Build.list items.reverse s).2 := by
  change (Argument.list "reverse" v >>= _) s = _
  rw [Action.bind_ok (Argument.list_proper h)]
  rfl

theorem run_reverse_improper (h : ¬ s.Proper v) :
    run .reverse [v] s = .error (Argument.complaint s "reverse" v) s := by
  change (Argument.list "reverse" v >>= _) s = _
  rw [Action.bind_error (Argument.list_improper h)]

end Listing

namespace Machine

variable {c : Context} {k : Stack} {d : Nat} {s t : Store} {r : Routine} {args : List Value}
  {v w : Value} {e : Error}

theorem step_routine_ok (haccepts : r.arity.accepts args.length) (h : r.run args s = .ok w t) :
    step c ⟨.apply (.primitive (.routine r)) args, k, d, s⟩ = ⟨.value w, k, d, t⟩ := by
  change perform (apply c _ args k) k d s = _
  have happly : apply c (.primitive (.routine r)) args k = r.run args >>= fun v => giveValue v k :=
    if_pos haccepts
  rw [happly, perform_bind _ h]
  rfl

theorem step_routine_error (haccepts : r.arity.accepts args.length)
    (h : r.run args s = .error e t) :
    step c ⟨.apply (.primitive (.routine r)) args, k, d, s⟩ = ⟨.error e, k, d, t⟩ := by
  change perform (apply c _ args k) k d s = _
  have happly : apply c (.primitive (.routine r)) args k = r.run args >>= fun v => giveValue v k :=
    if_pos haccepts
  rw [happly, perform, Action.bind_error h]

end Machine

section Taking

variable (c : Context) (k : Stack) (d : Nat) (s : Store) (v : Value)

open Machine (step)

/-- The call of a primitive on lists. -/
abbrev Machine.calling (op : Listing) (args : List Value) (k : Stack) (d : Nat) (s : Store) :
    Machine := ⟨.apply (.primitive (.routine (.listing op))) args, k, d, s⟩

/-- What takes the value for a list goes on with its items. -/
structure TakesItems (items : List Value) : Prop where
  length : step c (.calling .length [v] k d s) = ⟨.value (.int (Int64.ofNat items.length)), k, d, s⟩
  reverse : step c (.calling .reverse [v] k d s) =
    ⟨.value (Build.list items.reverse s).1, k, d, (Build.list items.reverse s).2⟩
  append : ∀ before after last, (∀ w ∈ before ++ after, s.Proper w) →
    ∃ w t, step c (.calling .append (before ++ v :: (after ++ [last])) k d s) = ⟨.value w, k, d, t⟩
  apply : ∀ f args, step c ⟨.apply (.primitive (.control .apply)) (f :: args ++ [v]), k, d, s⟩ =
    ⟨.apply f (args ++ items), k, d, s⟩
  arguments : ∀ f env, step c ⟨.value f, .operator v env :: k, d, s⟩ =
    Machine.perform (Machine.arguments f [] items env k) k d s

/-- What takes the value for a list ends in an error and leaves the store as it is. -/
structure RefusesValue : Prop where
  length : step c (.calling .length [v] k d s) =
    ⟨.error (Argument.complaint s "length" v), k, d, s⟩
  reverse : step c (.calling .reverse [v] k d s) =
    ⟨.error (Argument.complaint s "reverse" v), k, d, s⟩
  append : ∀ before after last, (∀ w ∈ before, s.Proper w) →
    step c (.calling .append (before ++ v :: (after ++ [last])) k d s) =
      ⟨.error (Argument.complaint s "append" v), k, d, s⟩
  apply : ∀ f args, step c ⟨.apply (.primitive (.control .apply)) (f :: args ++ [v]), k, d, s⟩ =
    ⟨.error (Argument.complaint s "apply" v), k, d, s⟩
  arguments : ∀ f env, step c ⟨.value f, .operator v env :: k, d, s⟩ =
    ⟨.error (.eval (.improperArguments (s.writeText v))), k, d, s⟩

variable {c k d s v} {items : List Value}

theorem takesItems (h : s.Chain v items .null) : TakesItems c k d s v items where
  length := by
    refine Machine.step_routine_ok rfl ?_
    change (Argument.list "length" v >>= _) s = _
    rw [Action.bind_ok (Argument.list_proper h)]
    rfl
  reverse := Machine.step_routine_ok rfl (Listing.run_reverse h)
  append before after last hothers := by
    have hall : ∀ w ∈ before ++ v :: after, s.Proper w := by
      simp only [List.mem_append, List.mem_cons] at hothers ⊢
      rintro w (hw | rfl | hw)
      · exact hothers w (.inl hw)
      · exact ⟨items, h⟩
      · exact hothers w (.inr hw)
    obtain ⟨lists, hlists⟩ := Listing.exists_chains hall
    rw [← List.cons_append, ← List.append_assoc]
    exact ⟨_, _, Machine.step_routine_ok rfl (Listing.run_append_chains last hlists)⟩
  apply f args := Machine.perform_spread (properList?_eq_some.mpr h)
  arguments f env := by
    change Machine.perform (Machine.resume c f (.operator v env) k) k d s = _
    rw [Machine.resume, Machine.perform_properList, properList?_eq_some.mpr h]

theorem refusesValue (h : ¬ s.Proper v) : RefusesValue c k d s v where
  length := by
    refine Machine.step_routine_error rfl ?_
    change (Argument.list "length" v >>= _) s = _
    rw [Action.bind_error (Argument.list_improper h)]
  reverse := Machine.step_routine_error rfl (Listing.run_reverse_improper h)
  append before after last hbefore := by
    refine Machine.step_routine_error rfl ?_
    change Listing.run .append _ s = _
    rw [← List.cons_append, ← List.append_assoc, Listing.run_append,
      Action.bind_error (Listing.appendItems_improper hbefore h)]
  apply f args := by
    have haccepts : Control.apply.arity.accepts (f :: (args ++ [v])).length := by
      simp [Control.arity, Arity.accepts]
    change Machine.perform (Machine.apply c _ (f :: (args ++ [v])) k) k d s = _
    rw [Machine.apply_control haccepts, Machine.control]
    simp only [List.getLast?_concat]
    rw [Machine.perform, Action.bind_error (Argument.list_improper h)]
  arguments f env := by
    change Machine.perform (Machine.resume c f (.operator v env) k) k d s = _
    rw [Machine.resume, Machine.perform_properList, Store.properList?_eq_none h]
    rfl

/-- How the chain of pairs that begins with the value is split, and who asks for the items. -/
structure SplitsExactly (s : Store) (v : Value) : Prop where
  /-- The pointers come to an end, and what they find is the answer. -/
  decides : s.chase (2 * s.pairs.size + 1) false [] v v = some (s.splitList? v)
  none_iff : s.splitList? v = none ↔ s.Circular v
  circular_iff : s.Circular v ↔ ∀ n, ∃ a, s.dropPairs n v = .pair a
  some_iff : ∀ items tail, s.splitList? v = some (items, tail) ↔ s.Chain v items tail
  properList_iff : ∀ items, s.properList? v = some items ↔ s.Chain v items .null
  isList : ∀ c k d, ∃ b, step c (.calling .isList [v] k d s) = ⟨.value (.bool b), k, d, s⟩ ∧
    (b ↔ s.Proper v)
  takes : ∀ c k d items, s.Chain v items .null → TakesItems c k d s v items
  refuses : ∀ c k d, ¬ s.Proper v → RefusesValue c k d s v

/-- Every chain in every store is split, and asked for, so. -/
theorem splits_exactly (s : Store) (v : Value) : SplitsExactly s v where
  decides := s.chase_decides v
  none_iff := Store.splitList?_eq_none
  circular_iff := Store.circular_iff
  some_iff _ _ := Store.splitList?_eq_some
  properList_iff _ := properList?_eq_some
  isList c k d := by
    refine ⟨(s.properList? v).isSome, Machine.step_routine_ok rfl rfl, ?_⟩
    rw [Option.isSome_iff_exists]
    exact exists_congr fun _ => properList?_eq_some
  takes _ _ _ _ := takesItems
  refuses _ _ _ := refusesValue

/-- The list `(2 . 3)` has a dotted tail, and yet it may be the last argument. -/
theorem append_takes_dotted : ∃ s : Store, ¬ s.Proper (.pair 0) ∧
    step default (.calling .append [.null, .pair 0] [] 0 s) = ⟨.value (.pair 0), [], 0, s⟩ := by
  refine ⟨{ Store.empty with pairs := #[⟨.int 2, .int 3⟩] }, ?_, rfl⟩
  rintro ⟨items, h⟩
  cases properList?_eq_some.mpr h

end Taking

end HygienicScheme
