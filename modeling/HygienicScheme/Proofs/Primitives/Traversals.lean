import HygienicScheme.Proofs.Evaluation.Endings
import HygienicScheme.Proofs.Primitives.Lists
import HygienicScheme.Proofs.Store.Spines

/-!
# Calls on the items of lists

Two primitives call a procedure with the items of lists, row by row. They read the items of all
lists before the first call, so no call changes the rows of those after it. The next row is called
when the call before it has come to a value; an error or an escape of a call is that of the whole.
-/
namespace HygienicScheme

def Store.items (s : Store) (v : Value) : List Value := (s.properList? v).getD []

def Store.columns (s : Store) (lists : List Value) : List (List Value) := lists.map s.items

theorem Argument.list_items {s : Store} {v : Value} (h : s.Proper v) (procedure : String) :
    list procedure v s = .ok (s.items v) s := by
  obtain ⟨items, h⟩ := h
  rw [list_proper h, Store.items, Store.properList?_eq_some.mpr h, Option.getD_some]

namespace Machine

section Rows

variable {columns : List (List Value)} {i : Nat}

def shortest (columns : List (List Value)) : Nat := (columns.map List.length).min?.getD 0

def row (columns : List (List Value)) (i : Nat) : List Value :=
  columns.map fun column => column.getD i .null

theorem lt_shortest (hcolumns : columns ≠ []) :
    i < shortest columns ↔ ∀ column ∈ columns, i < column.length := by
  have hsome : ∃ n, (columns.map List.length).min? = some n := by
    rw [← Option.isSome_iff_exists, List.isSome_min?_iff]
    simpa using hcolumns
  obtain ⟨n, hn⟩ := hsome
  obtain ⟨hmem, hle⟩ := List.min?_eq_some_iff.mp hn
  rw [shortest, hn, Option.getD_some]
  constructor
  · intro hi column hcolumn
    exact Nat.lt_of_lt_of_le hi (hle _ (List.mem_map_of_mem hcolumn))
  · intro hall
    obtain ⟨column, hcolumn, rfl⟩ := List.mem_map.mp hmem
    exact hall column hcolumn

theorem nextRow?_drop : nextRow? (columns.map (·.drop i)) =
    if ∀ column ∈ columns, i < column.length
    then some (row columns i, columns.map (·.drop (i + 1))) else none := by
  induction columns with
  | nil => rfl
  | cons column more ih =>
    by_cases hi : i < column.length
    · rw [List.map_cons, List.drop_eq_getElem_cons hi, nextRow?, ih]
      by_cases hmore : ∀ column ∈ more, i < column.length
      · have hall : ∀ c ∈ column :: more, i < c.length := List.forall_mem_cons.mpr ⟨hi, hmore⟩
        rw [if_pos hmore, if_pos hall]
        simp [row, hi]
      · have hall : ¬ ∀ c ∈ column :: more, i < c.length :=
          fun hall => hmore (List.forall_mem_cons.mp hall).2
        rw [if_neg hmore, if_neg hall]
    · rw [List.map_cons, List.drop_eq_nil_of_le (Nat.not_lt.mp hi), nextRow?, if_neg]
      exact fun hall => hi (hall column List.mem_cons_self)

theorem nextRow?_of_lt (hcolumns : columns ≠ []) (hi : i < shortest columns) :
    nextRow? (columns.map (·.drop i)) = some (row columns i, columns.map (·.drop (i + 1))) := by
  rw [nextRow?_drop, if_pos ((lt_shortest hcolumns).mp hi)]

theorem nextRow?_of_le (hcolumns : columns ≠ []) (hi : shortest columns ≤ i) :
    nextRow? (columns.map (·.drop i)) = none := by
  rw [nextRow?_drop, if_neg (mt (lt_shortest hcolumns).mpr (Nat.not_lt.mpr hi))]

end Rows

/-- The primitives that call a procedure with the items of lists. -/
inductive Traversal
  | mapping
  | iteration

namespace Traversal

def control : Traversal → Control
  | mapping => .map
  | iteration => .forEach

def waiting (f : Value) (columns : List (List Value)) (done : List Value) : Traversal → Pending
  | mapping => .mapping f columns done
  | iteration => .iteration f columns

def next (f : Value) (columns : List (List Value)) (done : List Value) (k : Stack) :
    Traversal → Move
  | mapping => map f columns done k
  | iteration => forEach f columns k

def Finishes (vs : List Value) (t : Store) (v : Value) (s' : Store) : Traversal → Prop
  | mapping => t.MakesList vs v s'
  | iteration => v = .unspecified ∧ s' = t

abbrev begun (T : Traversal) (f : Value) (lists : List Value) (k : Stack) (d : Nat) (s : Store) :
    Machine := ⟨.apply (.primitive (.control T.control)) (f :: lists), k, d, s⟩

variable {T : Traversal} {c : Context} {f v : Value} {columns rest : List (List Value)}
  {done lists items : List Value} {k : Stack} {d : Nat} {s t : Store}

theorem isPlain_waiting : isPlain (T.waiting f columns done) = true := by
  cases T <;> rfl

theorem resume_waiting :
    resume c v (T.waiting f columns done) k = T.next f columns (v :: done) k := by
  cases T <;> rfl

theorem next_row (h : nextRow? columns = some (items, rest)) : T.next f columns done k =
    pure (.apply f items, .call :: T.waiting f rest done :: k) := by
  cases T with
  | mapping => simp only [next, map, h, waiting]
  | iteration => simp only [next, forEach, h, waiting]

theorem perform_end (done : List Value) (h : nextRow? columns = none) :
    ∃ v s', T.Finishes done.reverse s v s' ∧
      perform (T.next f columns done k) k d s = ⟨.value v, k, d, s'⟩ := by
  cases T with
  | mapping =>
    refine ⟨_, _, Build.list_makes done.reverse s, ?_⟩
    simp only [next, map, h]
    rfl
  | iteration =>
    refine ⟨_, _, ⟨rfl, rfl⟩, ?_⟩
    simp only [next, forEach, h]
    rfl

theorem columns_proper (procedure : String) (h : ∀ v ∈ lists, s.Proper v) :
    lists.mapM (Argument.list procedure) s = .ok (s.columns lists) s := by
  induction lists with
  | nil => rfl
  | cons v more ih =>
    obtain ⟨hv, hmore⟩ := List.forall_mem_cons.mp h
    rw [List.mapM_cons, Action.bind_ok (Argument.list_items hv procedure),
      Action.bind_ok (ih hmore)]
    rfl

theorem columns_improper (procedure : String) (h : ∃ v ∈ lists, ¬ s.Proper v) :
    ∃ v ∈ lists, ¬ s.Proper v ∧ lists.mapM (Argument.list procedure) s =
      .error (Argument.complaint s procedure v) s := by
  induction lists with
  | nil => simp at h
  | cons v more ih =>
    by_cases hv : s.Proper v
    · have hmore : ∃ v ∈ more, ¬ s.Proper v := by
        obtain ⟨w, hw, himproper⟩ := h
        rcases List.mem_cons.mp hw with rfl | hw
        · exact absurd hv himproper
        · exact ⟨w, hw, himproper⟩
      obtain ⟨w, hw, himproper, herror⟩ := ih hmore
      refine ⟨w, List.mem_cons_of_mem _ hw, himproper, ?_⟩
      rw [List.mapM_cons, Action.bind_ok (Argument.list_items hv procedure),
        Action.bind_error herror]
    · refine ⟨v, List.mem_cons_self, hv, ?_⟩
      rw [List.mapM_cons, Action.bind_error (Argument.list_improper hv)]

theorem step_begun (hlists : lists ≠ []) : step c (T.begun f lists k d s) =
    perform (lists.mapM (Argument.list T.control.name) >>= fun columns => T.next f columns [] k) k d
      s := by
  have haccepts : T.control.arity.accepts (f :: lists).length = true := by
    have hlength := List.length_pos_iff.mpr hlists
    cases T <;> simp [control, Control.arity, Arity.accepts] <;> omega
  change perform (apply c _ (f :: lists) k) k d s = _
  rw [apply_control haccepts]
  cases T <;> rfl

theorem step_proper (hlists : lists ≠ []) (h : ∀ v ∈ lists, s.Proper v) :
    step c (T.begun f lists k d s) = perform (T.next f (s.columns lists) [] k) k d s := by
  rw [step_begun hlists, perform_bind _ (columns_proper _ h)]

end Traversal

def applied (c : Context) (d : Nat) (f : Value) (args : List Value) : Run := fun s =>
  Comes c ⟨.apply f args, [.call], d, s⟩

/-- The procedure is called with the first rows, one after the other, and the calls come to these
values. -/
inductive Called (c : Context) (d : Nat) (f : Value) (rows : List (List Value)) (s : Store) :
    List Value → Store → Prop
  | none : Called c d f rows s [] s
  | next {args vs : List Value} {v : Value} {t u : Store} (h : Called c d f rows s vs t)
      (hargs : rows[vs.length]? = some args) (hv : applied c d f args t (.value v) u) :
      Called c d f rows s (vs ++ [v]) u

def rows (columns : List (List Value)) : List (List Value) :=
  (List.range (shortest columns)).map (row columns)

namespace Traversal

variable {T : Traversal} {c : Context} {f v : Value} {columns : List (List Value)}
  {vs lists args : List Value} {k : Stack} {d : Nat} {s s' t : Store} {r : Result}

theorem rows_getElem? {i : Nat} :
    (rows columns)[i]? = some args ↔ i < shortest columns ∧ args = row columns i := by
  rw [rows, List.getElem?_map]
  by_cases hi : i < shortest columns
  · simp [hi, eq_comm]
  · simp [hi]

def calling (T : Traversal) (f : Value) (columns : List (List Value)) (vs : List Value) (k : Stack)
    (d : Nat) (t : Store) : Machine :=
  ⟨.apply f (row columns vs.length),
    .call :: T.waiting f (columns.map (·.drop (vs.length + 1))) vs.reverse :: k, d, t⟩

def taking (T : Traversal) (f : Value) (columns : List (List Value)) (vs : List Value) (k : Stack)
    (d : Nat) (t : Store) : Machine :=
  perform (T.next f (columns.map (·.drop vs.length)) vs.reverse k) k d t

theorem taking_of_lt (hcolumns : columns ≠ []) (h : vs.length < shortest columns) :
    T.taking f columns vs k d t = T.calling f columns vs k d t := by
  rw [taking, next_row (nextRow?_of_lt hcolumns h)]
  rfl

theorem taking_end (hcolumns : columns ≠ []) (h : shortest columns ≤ vs.length) :
    ∃ v s', T.Finishes vs t v s' ∧ T.taking f columns vs k d t = ⟨.value v, k, d, s'⟩ := by
  have hend := perform_end (T := T) (f := f) (k := k) (d := d) (s := t) vs.reverse
    (nextRow?_of_le hcolumns h)
  rwa [List.reverse_reverse] at hend

theorem later_taking (hcolumns : columns ≠ []) (h : Called c d f (rows columns) s vs t) :
    Later c (T.taking f columns [] k d s) (T.taking f columns vs k d t) := by
  induction h with
  | none => exact .refl
  | @next args vs v t u _ hargs hv ih =>
    obtain ⟨hlt, rfl⟩ := rows_getElem?.mp hargs
    rw [taking_of_lt hcolumns hlt] at ih
    have hresumed := ih.resume_above (m := ⟨.apply f (row columns vs.length), [.call], d, t⟩)
      isPlain_waiting rfl hv
    rw [resume_waiting] at hresumed
    simpa [taking] using hresumed

def Completes (T : Traversal) (c : Context) (d : Nat) (f : Value) (columns : List (List Value))
    (s : Store) (v : Value) (s' : Store) : Prop :=
  ∃ vs t, Called c d f (rows columns) s vs t ∧ vs.length = shortest columns ∧
    T.Finishes vs t v s'

def Stops (c : Context) (d : Nat) (f : Value) (columns : List (List Value)) (s : Store)
    (r : Result) (s' : Store) : Prop :=
  ∃ vs t args, Called c d f (rows columns) s vs t ∧ (rows columns)[vs.length]? = some args ∧
    applied c d f args t r s' ∧ ∀ v, r ≠ .value v

theorem length_le_of_called (h : Called c d f (rows columns) s vs t) :
    vs.length ≤ shortest columns := by
  cases h with
  | none => exact Nat.zero_le _
  | next _ hargs _ =>
    rw [List.length_append]
    exact (rows_getElem?.mp hargs).1

theorem ends_of_taking (hcolumns : columns ≠ []) (hcalled : Called c d f (rows columns) s vs t)
    (h : Comes c (T.taking f columns vs [] d t) r s') :
    (∃ v, r = .value v ∧ T.Completes c d f columns s v s') ∨ Stops c d f columns s r s' := by
  induction hleft : shortest columns - vs.length generalizing vs t with
  | zero =>
    obtain ⟨v, u, hfinishes, hend⟩ := taking_end (T := T) (f := f) (k := []) (d := d) (t := t)
      hcolumns (Nat.le_of_sub_eq_zero hleft)
    rw [hend] at h
    obtain ⟨rfl, rfl⟩ := comes_result (r := .value v) |>.mp h
    have hle := length_le_of_called hcalled
    exact .inl ⟨v, rfl, vs, t, hcalled, by omega, hfinishes⟩
  | succ left ih =>
    have hlt : vs.length < shortest columns := by omega
    have hargs := rows_getElem?.mpr ⟨hlt, rfl⟩
    rw [taking_of_lt hcolumns hlt] at h
    rcases (comes_above (m := ⟨.apply f (row columns vs.length), [.call], d, t⟩)
      isPlain_waiting rfl).mp h with ⟨v, u, hv, hrest⟩ | ⟨hr, hcomes⟩
    · rw [resume_waiting] at hrest
      refine ih (hcalled.next hargs hv) ?_ (by simp; omega)
      simpa [taking] using hrest
    · exact .inr ⟨vs, t, _, hcalled, hargs, hcomes, hr⟩

theorem later_begun (hlists : lists ≠ []) (h : ∀ v ∈ lists, s.Proper v) :
    Later c (T.begun f lists k d s) (T.taking f (s.columns lists) [] k d s) := by
  have hdrop : (s.columns lists).map (·.drop 0) = s.columns lists := List.map_id _
  refine ⟨1, (step_proper hlists h).trans ?_⟩
  rw [taking, List.length_nil, hdrop, List.reverse_nil]

variable (T c f lists s) in
/-- The primitive calls the procedure in order, with rows of a snapshot of the lists. -/
structure InOrder : Prop where
  /-- It asks for proper lists before it calls anything. -/
  refuses : ∀ k d, (∃ v ∈ lists, ¬ s.Proper v) → ∃ v ∈ lists, ¬ s.Proper v ∧
    step c (T.begun f lists k d s) = ⟨.error (Argument.complaint s T.control.name v), k, d, s⟩
  /-- There are as many rows as the shortest list has items in the store in which it begins, and
  each holds the items that stand at its place there. -/
  rows_length : (rows (s.columns lists)).length = shortest (s.columns lists)
  rows_items : ∀ (i : Nat) args, (rows (s.columns lists))[i]? = some args →
    List.Forall₂ (fun v w => (s.items v)[i]? = some w) lists args
  /-- A call that comes to a value is followed by the call with the next row. -/
  calls : ∀ k d vs t, (∀ v ∈ lists, s.Proper v) → Called c d f (rows (s.columns lists)) s vs t →
    vs.length < shortest (s.columns lists) →
    Later c (T.begun f lists k d s) (T.calling f (s.columns lists) vs k d t)
  /-- After the last row it has its value. -/
  completes : ∀ k d vs t, (∀ v ∈ lists, s.Proper v) →
    Called c d f (rows (s.columns lists)) s vs t → vs.length = shortest (s.columns lists) →
    ∃ v s', T.Finishes vs t v s' ∧ Later c (T.begun f lists k d s) ⟨.value v, k, d, s'⟩
  /-- A call that comes to anything else ends it, with what came of the call. -/
  stops : ∀ k d r s', (∀ v ∈ lists, s.Proper v) → Stops c d f (s.columns lists) s r s' →
    Later c (T.begun f lists k d s) ⟨r.task, k, d, s'⟩
  /-- Nothing else can come of it. -/
  only : ∀ d r s', (∀ v ∈ lists, s.Proper v) → Comes c (T.begun f lists [] d s) r s' →
    (∃ v, r = .value v ∧ T.Completes c d f (s.columns lists) s v s') ∨
      Stops c d f (s.columns lists) s r s'

theorem items_row {i : Nat} (h : ∀ v ∈ lists, i < (s.items v).length) :
    List.Forall₂ (fun v w => (s.items v)[i]? = some w) lists (row (s.columns lists) i) := by
  induction lists with
  | nil => exact .nil
  | cons v more ih =>
    obtain ⟨hv, hmore⟩ := List.forall_mem_cons.mp h
    refine .cons ?_ (ih hmore)
    simp [hv]

end Traversal

/-- Both primitives do so, whatever the procedure and the lists are. -/
theorem traverses_in_order (T : Traversal) (c : Context) (f first : Value) (more : List Value)
    (s : Store) : T.InOrder c f (first :: more) s := by
  have hlists : first :: more ≠ [] := List.cons_ne_nil _ _
  have hcolumns : s.columns (first :: more) ≠ [] := List.cons_ne_nil _ _
  refine ⟨?_, ?_, ?_, ?_, ?_, ?_, ?_⟩
  · intro k d h
    obtain ⟨v, hv, himproper, herror⟩ := Traversal.columns_improper T.control.name h
    refine ⟨v, hv, himproper, ?_⟩
    rw [Traversal.step_begun hlists, perform, Action.bind_error herror]
  · rw [rows, List.length_map, List.length_range]
  · intro i args hargs
    obtain ⟨hi, rfl⟩ := Traversal.rows_getElem?.mp hargs
    exact Traversal.items_row fun v hv => (lt_shortest hcolumns).mp hi _ (List.mem_map_of_mem hv)
  · intro k d vs t h hcalled hlt
    have hlater := (Traversal.later_begun (T := T) (k := k) hlists h).trans
      (Traversal.later_taking hcolumns hcalled)
    rwa [Traversal.taking_of_lt hcolumns hlt] at hlater
  · intro k d vs t h hcalled hlength
    obtain ⟨v, s', hfinishes, hend⟩ := Traversal.taking_end (T := T) (f := f) (k := k) (d := d)
      (t := t) hcolumns (Nat.le_of_eq hlength.symm)
    have hlater := (Traversal.later_begun (T := T) (k := k) hlists h).trans
      (Traversal.later_taking hcolumns hcalled)
    rw [hend] at hlater
    exact ⟨v, s', hfinishes, hlater⟩
  · rintro k d r s' h ⟨vs, t, args, hcalled, hargs, hcomes, hr⟩
    obtain ⟨hlt, rfl⟩ := Traversal.rows_getElem?.mp hargs
    have hlater := (Traversal.later_begun (T := T) (k := k) hlists h).trans
      (Traversal.later_taking hcolumns hcalled)
    rw [Traversal.taking_of_lt hcolumns hlt] at hlater
    let called : Machine := ⟨.apply f (row (s.columns (first :: more)) vs.length), [.call], d, t⟩
    exact hlater.pass_above (m := called) Traversal.isPlain_waiting rfl hr hcomes
  · intro d r s' h hcomes
    exact Traversal.ends_of_taking hcolumns .none
      ((comes_later (Traversal.later_begun hlists h)).mpr hcomes)

end Machine

end HygienicScheme
