import HygienicScheme.Proofs.Quasiquote.Agreement

/-!
# Templates of vectors

The evaluator makes a list of the items of a vector and walks that list. It reads what is left of
the list as a form of quasiquotation if two items are left and the first of them is a keyword.
Where no vector ends so, each item is walked by itself, from the left, and the vector that is made
has the values of these walks for its items.
-/
namespace HygienicScheme

open Machine (alone evaluations)

/-- The two last items read as a keyword of quasiquotation and its operand. -/
def EndsInForm (items : List Value) : Prop :=
  ∃ before x operand, items = before ++ [.symbol x, operand] ∧
    (QuasiKeyword.ofSymbol? x).isSome

section Walks

variable (c : Context) (env : Environment) (d level : Nat)

inductive Walks : Store → List Value → List Value → Store → Prop
  | nil {s : Store} : Walks s [] [] s
  | cons {s t u : Store} {v w : Value} {more ws : List Value}
      (h : alone c d (.template v env level) s (.value w) t) (hmore : Walks t more ws u) :
      Walks s (v :: more) (w :: ws) u

/-- No template is an unquote-splicing form of this level when its turn comes. -/
def Unspliced (s : Store) (items : List Value) : Prop :=
  level = 1 → ∀ before v after ws t, items = before ++ v :: after →
    Walks c env d level s before ws t → Machine.splice? t v = none

variable {c env d level} {s t u : Store} {v w : Value} {items more ws : List Value}

theorem Walks.length_eq (h : Walks c env d level s items ws t) : ws.length = items.length := by
  induction h with
  | nil => rfl
  | cons _ _ ih => rw [List.length_cons, List.length_cons, ih]

theorem walks_nil : Walks c env d level s [] ws t ↔ ws = [] ∧ t = s := by
  constructor
  · rintro ⟨⟩
    exact ⟨rfl, rfl⟩
  · rintro ⟨rfl, rfl⟩
    exact .nil

theorem walks_cons : Walks c env d level s (v :: more) ws u ↔ ∃ w ws' t, ws = w :: ws' ∧
    alone c d (.template v env level) s (.value w) t ∧ Walks c env d level t more ws' u := by
  constructor
  · rintro (_ | ⟨h, hmore⟩)
    exact ⟨_, _, _, rfl, h, hmore⟩
  · rintro ⟨w, ws', t, rfl, h, hmore⟩
    exact .cons h hmore

theorem Unspliced.head (h : Unspliced c env d level s (v :: more)) :
    (if level = 1 then Machine.splice? s v else none) = none := by
  split
  · rename_i hlevel
    exact h hlevel [] v more [] s rfl .nil
  · rfl

theorem Unspliced.tail (h : Unspliced c env d level s (v :: more))
    (hv : alone c d (.template v env level) s (.value w) t) : Unspliced c env d level t more :=
  fun hlevel before x after ws u hmore hwalks =>
    h hlevel (v :: before) x after (w :: ws) u (by rw [hmore]; rfl) (.cons hv hwalks)

theorem EndsInForm.cons (h : EndsInForm more) : EndsInForm (v :: more) := by
  obtain ⟨before, x, operand, rfl, hx⟩ := h
  exact ⟨v :: before, x, operand, rfl, hx⟩

end Walks

namespace Build

theorem consReversed_append (items more : List Value) (tail : Value) (s : Store) :
    consReversed (items ++ more) tail s =
      consReversed more (consReversed items tail s).1 (consReversed items tail s).2 := by
  induction items generalizing tail s with
  | nil => rfl
  | cons item items ih => exact ih _ _

theorem list_cons (w : Value) (ws : List Value) (s : Store) :
    list (w :: ws) s = cons w (list ws s).1 (list ws s).2 := by
  simp only [list, listWithTail, List.reverse_cons, consReversed_append]
  rfl

end Build

namespace Machine

variable {c : Context} {env : Environment} {d level : Nat} {s t : Store} {v w tail : Value}
  {own : Cells} {o s' : Store} {items : List Value} {r : Result}

theorem keptBy_template (B : Blind) (hs : B.Holds s) (hv : B.Data s v) :
    B.toDiscipline.KeptBy (alone c d (.template v env level)) s := by
  rintro w t ⟨n, d', h⟩
  have hm : (⟨.template v env level, [], d, s⟩ : Machine).Kept B.regimen :=
    ⟨hs, ⟨hv, B.everywhere env⟩, by simp⟩
  obtain ⟨hkept, hleads⟩ := B.iterate hm (c := c) n
  rw [h] at hkept hleads
  exact ⟨⟨hkept.store, hleads⟩, hkept.task.all⟩

/-- A pair that is no form, and whose head is not spliced, is walked from the left. -/
theorem alone_pair {a : Address} (hform : s.quasiForm? (.pair a) = none)
    (hsplice : (if level = 1 then splice? s (s.pairAt a).car else none) = none) :
    alone c d (.template (.pair a) env level) s r s' ↔
      ((alone c d (.template (s.pairAt a).car env level)).andThen fun x =>
        (alone c d (.template (s.pairAt a).cdr env level)).andThen fun y =>
          .doing (liftM (Build.cons x y)) .done) s r s' := by
  have hstep := step_pair c env level d [] hform
  simp only [hsplice] at hstep
  rw [alone, ← comes_step, hstep]
  exact (comes_push rfl).trans (Run.andThen_congr (fun _ _ => Iff.rfl) fun x t _ =>
    (comes_push rfl).trans (Run.andThen_congr (fun _ _ => Iff.rfl) fun y _ _ => comes_give))

theorem alone_vector {a : Address} {list : Value}
    (hlist : Build.list (s.vectorAt a).toList s = (list, t)) :
    alone c d (.template (.vector a) env level) s r s' ↔
      ((alone c d (.template list env level)).andThen fun v =>
        .doing (Reference.vectorOfList v) .done) t r s' := by
  rw [alone, ← comes_step, step_vector, hlist]
  exact (comes_push rfl).trans (Run.andThen_congr (fun _ _ => Iff.rfl) fun v t _ =>
    comes_give (a := liftM (Build.vector ((t.properList? v).getD []).toArray)))

/-- The list of a vector's items reads as a form only where the items end in one. -/
theorem quasiForm?_consed {a : Address} (hrow : s.Consed own (.pair a) items .null)
    (hend : ¬ EndsInForm items) : s.quasiForm? (.pair a) = none := by
  refine Option.eq_none_iff_forall_ne_some.mpr fun ⟨keyword, operand⟩ h => ?_
  obtain ⟨a, x, hv, hx, hchain⟩ := Store.quasiForm?_chain h
  obtain ⟨rfl, -⟩ := (hrow.chain nofun).unique hchain
  exact hend ⟨[], x, operand, rfl, by rw [hx]; rfl⟩

theorem alone_row (hrow : o.Consed own w items tail) (htail : tail = .null)
    (h : Walking own o s (.ofList (items.map .atom))) (hend : ¬ EndsInForm items)
    (hsplice : Unspliced c env d level s items) :
    (∀ y s', alone c d (.template w env level) s (.value y) s' ↔
      ∃ ws u, Walks c env d level s items ws u ∧ Build.list ws u = (y, s')) ∧
    ∀ r s', (∀ y, r ≠ .value y) → (alone c d (.template w env level) s r s' ↔
      ∃ before v after ws u, items = before ++ v :: after ∧ Walks c env d level s before ws u ∧
        alone c d (.template v env level) u r s') := by
  induction hrow generalizing s with
  | nil =>
    subst htail
    have hdone (r : Result) (s' : Store) : alone c d (.template .null env level) s r s' ↔
        r = .value .null ∧ s' = s := by
      rw [alone, ← comes_step, step_atom (v := .null) (by simp) (by simp)]
      exact comes_result (r := .value .null)
    refine ⟨fun y s' => ?_, fun r s' hr => ?_⟩
    · rw [hdone]
      constructor
      · rintro ⟨⟨rfl⟩, rfl⟩
        exact ⟨[], s', .nil, rfl⟩
      · rintro ⟨ws, u, hwalks, hlist⟩
        obtain ⟨rfl, rfl⟩ := walks_nil.mp hwalks
        cases hlist
        exact ⟨rfl, rfl⟩
    · simp [hdone, hr]
  | @cons a items tail ha hrow ih =>
    subst htail
    have hpair : s.pairAt a = o.pairAt a := h.same.pairAt_eq a ha
    have hform := quasiForm?_consed ((Store.Consed.cons ha hrow).sameIn h.same) hend
    -- The row does not read as a form, so a pair of it is walked item first.
    have hsteps (r : Result) (s' : Store) : alone c d (.template (.pair a) env level) s r s' ↔
        ((alone c d (.template (o.pairAt a).car env level)).andThen fun x =>
          (alone c d (.template (o.pairAt a).cdr env level)).andThen fun y =>
            .doing (liftM (Build.cons x y)) .done) s r s' := by
      rw [← hpair]
      exact alone_pair hform (by rw [hpair]; exact hsplice.head)
    -- What the walk of the first item leaves is a state of things like the one before.
    have hrest (x : Value) (t : Store)
        (hx : alone c d (.template (o.pairAt a).car env level) s (.value x) t) := by
      have hwalking := (h.part fun hT => hT.2).after
        (keptBy_template locating h.all h.located.1)
        (keptBy_template (sparing own) h.hides h.apart.1) hx
      exact ih rfl hwalking (fun hforms => hend hforms.cons) (hsplice.tail hx)
    refine ⟨fun y s' => ?_, fun r s' hr => ?_⟩
    · simp only [hsteps, Run.andThen_value, Run.doing_lift, Run.done_value]
      constructor
      · rintro ⟨x, t, hx, z, u, hz, rfl, rfl⟩
        obtain ⟨ws, u', hwalks, hlist⟩ := ((hrest x t hx).1 z u).mp hz
        refine ⟨x :: ws, u', .cons hx hwalks, ?_⟩
        rw [Build.list_cons, hlist]
        rfl
      · rintro ⟨ws, u, hwalks, hlist⟩
        obtain ⟨x, ws, t, rfl, hx, hwalks⟩ := walks_cons.mp hwalks
        rw [Build.list_cons] at hlist
        exact ⟨x, t, hx, _, _, ((hrest x t hx).1 _ _).mpr ⟨ws, u, hwalks, rfl⟩,
          (congrArg Prod.fst hlist).symm, (congrArg Prod.snd hlist).symm⟩
    · -- Putting the row together again cannot fail, so the run ended in one of the items.
      have hcons (x y : Value) (t : Store) : ¬ Run.doing (liftM (Build.cons x y)) .done t r s' := by
        rw [Run.doing_lift]
        rintro ⟨rfl, -⟩
        exact hr _ rfl
      rw [hsteps]
      constructor
      · rintro (⟨x, t, hx, ⟨y, u, -, hdone⟩ | ⟨-, hmore⟩⟩ | ⟨-, hfirst⟩)
        · exact absurd hdone (hcons x y u)
        · obtain ⟨before, v, after, ws, u, rfl, hwalks, hv⟩ := ((hrest x t hx).2 r s' hr).mp hmore
          exact ⟨_ :: before, v, after, x :: ws, u, rfl, .cons hx hwalks, hv⟩
        · exact ⟨[], _, items, [], s, rfl, .nil, hfirst⟩
      · rintro ⟨before, v, after, ws, u, hitems, hwalks, hv⟩
        cases before with
        | nil =>
          obtain ⟨-, rfl⟩ := walks_nil.mp hwalks
          obtain ⟨rfl, -⟩ := List.cons.inj hitems
          exact .inr ⟨hr, hv⟩
        | cons first before =>
          obtain ⟨rfl, rfl⟩ := List.cons.inj hitems
          obtain ⟨x, ws, t, rfl, hx, hwalks⟩ := walks_cons.mp hwalks
          exact .inl ⟨x, t, hx, .inr ⟨hr, ((hrest x t hx).2 r s' hr).mpr
            ⟨before, v, after, ws, u, rfl, hwalks, hv⟩⟩⟩

end Machine

section Items

variable (c : Context) (env : Environment) (d level : Nat) (a : Address) (s t : Store)

/-- The template of a vector is walked item by item, from the second store on, which has the list of
the items besides what the first one has. -/
structure WalksItems : Prop where
  value : ∀ ws u, Walks c env d level t (s.vectorAt a).toList ws u → ∃ b s',
    alone c d (.template (.vector a) env level) s (.value (.vector b)) s' ∧
      s'.vectorAt b = ws.toArray ∧ ws.length = (s.vectorAt a).size
  value_only : ∀ w s', alone c d (.template (.vector a) env level) s (.value w) s' →
    ∃ b ws u, w = .vector b ∧ s'.vectorAt b = ws.toArray ∧
      Walks c env d level t (s.vectorAt a).toList ws u
  /-- Errors and escapes are those of the first item whose walk ends in one. -/
  ended_iff : ∀ r s', (∀ w, r ≠ .value w) →
    (alone c d (.template (.vector a) env level) s r s' ↔
      ∃ before v after ws u, (s.vectorAt a).toList = before ++ v :: after ∧
        Walks c env d level t before ws u ∧ alone c d (.template v env level) u r s')

variable {c env d level a s t}

theorem Run.value_of_vectorOfList {v : Value} {r : Result} {s s' : Store}
    (h : Run.doing (Reference.vectorOfList v) .done s r s') : ∃ w, r = .value w := by
  rcases h with ⟨w, t, -, hw⟩ | ⟨e, he, -⟩
  · exact ⟨w, hw.1⟩
  · cases he

/-- It is walked so if it does not end in what reads as a form of quasiquotation and if none of its
items is to be spliced. -/
theorem walksItems (hs : s.All s.Located) (ha : s.Located (.vector a))
    (hend : ¬ EndsInForm (s.vectorAt a).toList)
    (hsplice : Unspliced c env d level (Build.list (s.vectorAt a).toList s).2
      (s.vectorAt a).toList) :
    WalksItems c env d level a s (Build.list (s.vectorAt a).toList s).2 := by
  have hitems : ∀ v ∈ (s.vectorAt a).toList, s.Located v :=
    Discipline.item (D := locating.toDiscipline) hs ha
  have hwalking : Machine.Walking .none s s (.ofList ((s.vectorAt a).toList.map .atom)) := by
    refine ⟨hs, Outline.throughout_ofList trivial fun T hT => ?_, .none s,
      Outline.throughout_ofList Cells.not_has_none fun T hT => ?_, .refl s⟩
    · obtain ⟨v, hv, rfl⟩ := List.mem_map.mp hT
      exact hitems v hv
    · obtain ⟨v, -, rfl⟩ := List.mem_map.mp hT
      exact Cells.not_has_none
  obtain ⟨own, hmakes, hrow⟩ : ∃ own, s.Makes .none (Build.list (s.vectorAt a).toList s).2 own ∧
      (Build.list (s.vectorAt a).toList s).2.Consed own (Build.list (s.vectorAt a).toList s).1
        (s.vectorAt a).toList .null :=
    (Store.Hides.none s).listWithTail hs (s.vectorAt a).toList .null hitems trivial
  rcases hlist : Build.list (s.vectorAt a).toList s with ⟨list, t⟩
  rw [hlist] at hmakes hrow hsplice
  have hwhole (r : Result) (s' : Store) : alone c d (.template (.vector a) env level) s r s' ↔
      ((alone c d (.template list env level)).andThen fun v =>
        .doing (Reference.vectorOfList v) .done) t r s' := Machine.alone_vector hlist
  obtain ⟨hvalue, hended⟩ := Machine.alone_row hrow rfl (hwalking.made hmakes) hend hsplice
  -- The list that was walked is read back as it was put together.
  have hread {v : Value} {ws : List Value} {u u' : Store} (h : Build.list ws u = (v, u')) :
      u'.properList? v = some ws := by
    have hspine := (Build.listWithTail_spine ws .null u).2
    rw [show Build.listWithTail ws .null u = (v, u') from h] at hspine
    exact Store.properList?_eq_some.mpr (hspine.chain nofun)
  refine ⟨fun ws u hwalks => ?_, fun w s' h => ?_, fun r s' hr => ?_⟩
  · rcases hbuilt : Build.list ws u with ⟨v, u'⟩
    have hv := (hvalue v u').mpr ⟨ws, u, hwalks, hbuilt⟩
    have hvector := (Run.vectorOfList_value (hread hbuilt)).mpr ⟨rfl, rfl⟩
    refine ⟨_, _, (hwhole _ _).mpr (Run.andThen_value.mpr ⟨v, u', hv, hvector⟩),
      u'.vectorAt_push_size ws.toArray, ?_⟩
    rw [hwalks.length_eq, Array.length_toList]
  · obtain ⟨v, u', hv, hvector⟩ := Run.andThen_value.mp ((hwhole _ _).mp h)
    obtain ⟨ws, u, hwalks, hbuilt⟩ := (hvalue v u').mp hv
    obtain ⟨rfl, rfl⟩ := (Run.vectorOfList_value (hread hbuilt)).mp hvector
    exact ⟨_, ws, u, rfl, u'.vectorAt_push_size ws.toArray, hwalks⟩
  · rw [hwhole, ← hended r s' hr]
    constructor
    · rintro (⟨v, u, -, hvector⟩ | ⟨-, h⟩)
      · obtain ⟨w, rfl⟩ := Run.value_of_vectorOfList hvector
        exact absurd rfl (hr w)
      · exact h
    · exact fun h => .inr ⟨hr, h⟩

end Items

def keyed : Store :=
  let s := Store.ofPairs [⟨.name "unquote", .pair 1⟩, ⟨.int 5, .null⟩]
  { s with vectors := s.vectors.push #[.pair 0, .name "unquote", .int 7, .int 8] }

theorem keyed_located : keyed.All keyed.Located := by
  refine (locating.vector (Store.all_ofPairs ?_) ?_).1.1
  · simp [Store.ofPairs, Store.Located, Value.name]
  · exact List.forall_mem_cons.mpr ⟨Nat.two_pos, List.forall_mem_cons.mpr ⟨trivial,
      List.forall_mem_cons.mpr ⟨trivial, List.forall_mem_cons.mpr ⟨trivial, nofun⟩⟩⟩⟩

theorem walksItems_keyed : keyed.All keyed.Located ∧ keyed.Located (.vector 0) ∧
    ¬ EndsInForm (keyed.vectorAt 0).toList ∧
    Unspliced (Interpreter.bare {} "out").context ⟨1, [0]⟩ 0 1
      (Build.list (keyed.vectorAt 0).toList keyed).2 (keyed.vectorAt 0).toList ∧
    WalksItems (Interpreter.bare {} "out").context ⟨1, [0]⟩ 0 1 0 keyed
      (Build.list (keyed.vectorAt 0).toList keyed).2 := by
  have hlocated : keyed.Located (.vector 0) := Nat.one_pos
  have hend : ¬ EndsInForm (keyed.vectorAt 0).toList := by
    rintro ⟨before, x, operand, h, -⟩
    have hreverse : [.int 8, .int 7, .name "unquote", .pair 0] =
        (before ++ [.symbol x, operand]).reverse := congrArg List.reverse h
    rw [List.reverse_append] at hreverse
    cases hreverse
  have hsplice : Unspliced (Interpreter.bare {} "out").context ⟨1, [0]⟩ 0 1
      (Build.list (keyed.vectorAt 0).toList keyed).2 (keyed.vectorAt 0).toList := by
    rintro - before v after ws t h hwalks
    cases before with
    | nil =>
      obtain ⟨-, rfl⟩ := walks_nil.mp hwalks
      obtain rfl : Value.pair 0 = v := (List.cons.inj h).1
      rfl
    | cons first before =>
      -- All items but the first are atoms.
      have hmore : [.name "unquote", .int 7, .int 8] = before ++ v :: after := (List.cons.inj h).2
      have hv : v ∈ [.name "unquote", .int 7, .int 8] := hmore ▸ by simp
      simp only [List.mem_cons, List.not_mem_nil, or_false] at hv
      rcases hv with rfl | rfl | rfl <;> rfl
  exact ⟨keyed_located, hlocated, hend, hsplice, walksItems keyed_located hlocated hend hsplice⟩

end HygienicScheme
