import HygienicScheme.Proofs.Quasiquote.Filled
import HygienicScheme.Proofs.Quasiquote.Traversals
import Mathlib.Tactic.IntervalCases

/-!
# Three passes agree on templates

The expander, the pass that settles stamps and the evaluator take the same parts of a template for
code, and the evaluator fills the template with what this code comes to. But the evaluator reads the
template piece by piece, between the evaluations of the operands. So what it makes of the template
is told by the outline only if these leave the pairs and the vectors of the template as they were;
the rest of the walk sees what an operand assigns to one of them.
-/
namespace HygienicScheme

open Machine (alone evaluations)

namespace Outline

inductive Reaches (E : Value → Run) : Outline → Store → QuasiKeyword → Value → Store → Prop
  | code {keyword : QuasiKeyword} {operand : Value} {s : Store}
      (hk : keyword ≠ .unquoteSplicing) : Reaches E (.code keyword operand) s keyword operand s
  | form {keyword k : QuasiKeyword} {inner : Outline} {o : Value} {s t : Store}
      (h : Reaches E inner s k o t) : Reaches E (.form keyword inner) s k o t
  | splice {operand : Value} {cdr : Outline} {s : Store} :
      Reaches E (.pair (.code .unquoteSplicing operand) cdr) s .unquoteSplicing operand s
  | spliced {k : QuasiKeyword} {operand o v : Value} {items : List Value} {cdr : Outline}
      {s t u : Store} (hv : E operand s (.value v) t) (hitems : t.properList? v = some items)
      (h : Reaches E cdr t k o u) :
      Reaches E (.pair (.code .unquoteSplicing operand) cdr) s k o u
  | car {k : QuasiKeyword} {o : Value} {car cdr : Outline} {s t : Store}
      (h : Reaches E car s k o t) : Reaches E (.pair car cdr) s k o t
  | cdr {k : QuasiKeyword} {o x : Value} {car cdr : Outline} {s t u : Store}
      (hx : car.run E s (.value x) t) (h : Reaches E cdr t k o u) :
      Reaches E (.pair car cdr) s k o u
  | vector {k : QuasiKeyword} {o : Value} {items : List Value} {list : Outline} {s t : Store}
      (h : Reaches E list (Build.list items s).2 k o t) : Reaches E (.vector items list) s k o t

def Gives (E : Value → Run) (keyword : QuasiKeyword) (operand : Value) (s : Store) : Prop :=
  ∃ v t, E operand s (.value v) t ∧
    (keyword = .unquoteSplicing → ∃ items, t.properList? v = some items)

def misplaced : Error := .malformed "unquote-splicing" .outsideList

variable {E : Value → Run} {s t : Store} {w : Value} {T : Outline}

/-- A template whose operands have values has a value itself, unless it splices outside lists. -/
theorem run_of_gives (h : ∀ k o t, Reaches E T s k o t → Gives E k o t) :
    (T.Placed → ∃ w t, T.run E s (.value w) t) ∧
      (¬ T.Placed → ∃ t, T.run E s (.error misplaced) t) := by
  -- A part is walked in the store that the operands before it leave, as `Reaches` says.
  induction T generalizing s with
  | atom v => exact ⟨fun _ => ⟨v, s, rfl, rfl⟩, fun hT => absurd trivial hT⟩
  | code keyword operand =>
    refine ⟨fun hk => ?_, fun hT => ?_⟩
    · obtain ⟨v, t, hv, -⟩ := h _ _ _ (.code hk)
      exact ⟨v, t, by rwa [run, if_neg hk]⟩
    · obtain rfl := not_not.mp hT
      exact ⟨s, Run.doing_throw.mpr ⟨rfl, rfl⟩⟩
  | form keyword inner ih =>
    obtain ⟨hvalue, herror⟩ := ih fun k o t hr => h k o t (.form hr)
    refine ⟨fun hT => ?_, fun hT => ?_⟩
    · obtain ⟨v, t, hv⟩ := hvalue hT
      exact ⟨_, _, Run.andThen_value.mpr ⟨v, t, hv, Run.doing_lift.mpr ⟨rfl, rfl⟩⟩⟩
    · obtain ⟨t, ht⟩ := herror hT
      exact ⟨t, .inr ⟨by simp, ht⟩⟩
  | pair car cdr ihcar ihcdr =>
    cases hsplice : car.splice? with
    | some operand =>
      obtain rfl := splice?_eq_some.mp hsplice
      rw [run_splice]
      obtain ⟨v, t, hv, hlist⟩ := h _ _ _ .splice
      obtain ⟨items, hitems⟩ := hlist rfl
      obtain ⟨hvalue, herror⟩ := ihcdr fun k o u hr => h k o u (.spliced hv hitems hr)
      refine ⟨fun hT => ?_, fun hT => ?_⟩
      · obtain ⟨rest, u, hrest⟩ := hvalue hT.2
        exact ⟨_, _, Run.andThen_value.mpr ⟨v, t, hv, Run.spliced_value.mpr ⟨items, hitems,
          Run.andThen_value.mpr ⟨rest, u, hrest, Run.doing_lift.mpr ⟨rfl, rfl⟩⟩⟩⟩⟩
      · obtain ⟨u, hu⟩ := herror fun hcdr => hT ⟨.inl rfl, hcdr⟩
        exact ⟨u, .inl ⟨v, t, hv, .inl ⟨items, t, Reference.spliced_ok.mpr ⟨hitems, rfl⟩,
          .inr ⟨by simp, hu⟩⟩⟩⟩
    | none =>
      rw [run_pair hsplice]
      obtain ⟨hvalue, herror⟩ := ihcar fun k o t hr => h k o t (.car hr)
      -- Whether the first part has a value decides if the rest is walked at all.
      by_cases hcar : car.Placed
      · obtain ⟨x, t, hx⟩ := hvalue hcar
        obtain ⟨hvalue, herror⟩ := ihcdr fun k o u hr => h k o u (.cdr hx hr)
        refine ⟨fun hT => ?_, fun hT => ?_⟩
        · obtain ⟨y, u, hy⟩ := hvalue hT.2
          exact ⟨_, _, Run.andThen_value.mpr ⟨x, t, hx,
            Run.andThen_value.mpr ⟨y, u, hy, Run.doing_lift.mpr ⟨rfl, rfl⟩⟩⟩⟩
        · obtain ⟨u, hu⟩ := herror fun hcdr => hT ⟨.inr hcar, hcdr⟩
          exact ⟨u, .inl ⟨x, t, hx, .inr ⟨by simp, hu⟩⟩⟩
      · refine ⟨fun hT => ?_, fun _ => ?_⟩
        · rcases hT.1 with hsome | hplaced
          · rw [hsplice] at hsome
            cases hsome
          · exact absurd hplaced hcar
        · obtain ⟨t, ht⟩ := herror hcar
          exact ⟨t, .inr ⟨by simp, ht⟩⟩
  | vector items list ih =>
    obtain ⟨hvalue, herror⟩ := ih fun k o t hr => h k o t (.vector hr)
    refine ⟨fun hT => ?_, fun hT => ?_⟩
    · obtain ⟨v, t, hv⟩ := hvalue hT
      exact ⟨_, _, Run.doing_lift.mpr (Run.andThen_value.mpr
        ⟨v, t, hv, Run.doing_value.mpr ⟨_, _, rfl, Run.done_value.mpr ⟨rfl, rfl⟩⟩⟩)⟩
    · obtain ⟨t, ht⟩ := herror hT
      exact ⟨t, Run.doing_lift.mpr (.inr ⟨by simp, ht⟩)⟩

theorem placed_of_value (h : T.run E s (.value w) t) : T.Placed := by
  induction T generalizing s t w with
  | atom => trivial
  | code keyword operand =>
    rintro rfl
    cases (Run.doing_throw.mp h).1
  | form keyword inner ih =>
    obtain ⟨v, u, hv, -⟩ := Run.andThen_value.mp h
    exact ih hv
  | pair car cdr ihcar ihcdr =>
    cases hsplice : car.splice? with
    | some operand =>
      obtain rfl := splice?_eq_some.mp hsplice
      rw [run_splice] at h
      obtain ⟨v, u, hv, h⟩ := Run.andThen_value.mp h
      obtain ⟨items, -, h⟩ := Run.spliced_value.mp h
      obtain ⟨rest, r, hrest, -⟩ := Run.andThen_value.mp h
      exact ⟨.inl rfl, ihcdr hrest⟩
    | none =>
      rw [run_pair hsplice] at h
      obtain ⟨x, u, hx, h⟩ := Run.andThen_value.mp h
      obtain ⟨y, r, hy, -⟩ := Run.andThen_value.mp h
      exact ⟨.inr (ihcar hx), ihcdr hy⟩
  | vector items list ih =>
    rw [run, Run.doing_lift] at h
    obtain ⟨v, u, hv, -⟩ := Run.andThen_value.mp h
    exact ih hv

theorem isList_ofList : ∀ items : List Outline, (ofList items).IsList
  | [] => rfl
  | _ :: more => isList_ofList more

theorem proper_ofList {items : List Outline} (h : ∀ T ∈ items, T.Proper) :
    (ofList items).Proper := by
  induction items with
  | nil => trivial
  | cons T more ih => exact ⟨h T (by simp), ih fun U hU => h U (by simp [hU])⟩

theorem Proper.sites_operands (h : T.Proper) (p : Position) :
    (T.sites p).map Site.operand = T.operands := by
  suffices hboth : (∀ p, (T.sites p).map Site.operand = T.operands) ∧
      (T.IsList → ∀ i p, (T.itemSites i p).map Site.operand = T.operands) from hboth.1 p
  induction T with
  | atom | code => exact ⟨fun _ => rfl, fun hlist _ _ => by first | rfl | exact hlist.elim⟩
  | form _ inner ih => exact ⟨fun p => (ih h).1 _, fun hlist => hlist.elim⟩
  | pair car cdr ihcar ihcdr =>
    obtain ⟨hcar, hcdr⟩ := h
    refine ⟨fun p => ?_, fun hlist i p => ?_⟩
    · rw [sites, List.map_append, (ihcar hcar).1, (ihcdr hcdr).1, operands]
    · rw [itemSites, List.map_append, (ihcar hcar).1, (ihcdr hcdr).2 hlist, operands]
  | vector items list ih => exact ⟨(ih h.2).2 h.1 0, fun hlist => hlist.elim⟩

end Outline

theorem Outlined.proper {P : Store → Prop} {level : Nat} {v : Value} {T : Outline}
    (h : Outlined P level v T) : T.Proper := by
  induction h with
  | atom | code => trivial
  | form _ _ _ ih => exact ih
  | pair _ _ _ _ ihcar ihcdr => exact ⟨ihcar, ihcdr⟩
  | vector _ _ hlength _ ih =>
    refine ⟨Outline.isList_ofList _, Outline.proper_ofList fun T hT => ?_⟩
    rw [← List.map_snd_zip (Nat.le_of_eq hlength.symm)] at hT
    obtain ⟨⟨w, _⟩, hw, rfl⟩ := List.mem_map.mp hT
    exact ih w _ hw

section Evaluator

variable (c : Context) (env : Environment) (d : Nat) (v : Value) (T : Outline) (s : Store)

/-- The evaluator takes the operands of the outline for code and fills the template with what they
come to. -/
structure Evaluated : Prop where
  comes : ∀ r t, alone c d (.template v env 1) s r t ↔ T.run (evaluations c env d) s r t
  fills : ∀ w t, alone c d (.template v env 1) s (.value w) t → T.Placed ∧
    ∃ own es, T.Fills (evaluations c env d) s t own es w
  value : T.Placed →
    (∀ k o t, T.Reaches (evaluations c env d) s k o t → Outline.Gives (evaluations c env d) k o t) →
    ∃ w t, alone c d (.template v env 1) s (.value w) t
  rejected : ¬ T.Placed →
    (∀ k o t, T.Reaches (evaluations c env d) s k o t → Outline.Gives (evaluations c env d) k o t) →
    ∃ t, alone c d (.template v env 1) s (.error Outline.misplaced) t

end Evaluator

/-- The outline of a template tells how it is evaluated, if the template still reads so whenever the
evaluator reads a part of it. -/
theorem Outlined.evaluated {c : Context} {env : Environment} {d : Nat} {v : Value} {T : Outline}
    {s : Store} (hT : Outlined (Machine.Reads c ⟨.template v env 1, [], d, s⟩) 1 v T)
    (hs : s.All s.Located) (hv : s.Located v) : Evaluated c env d v T s := by
  have hstart : Machine.Reads c ⟨.template v env 1, [], d, s⟩ s :=
    ⟨_, _, _, _, _, .refl, List.forall_mem_nil _⟩
  have hlocated : T.Throughout s.Located := hT.throughout (D := locating.toDiscipline) hstart hs hv
  have hwalking : Machine.Walking .none s s T := ⟨hs, hlocated, .none s,
    hlocated.mono fun _ _ => Cells.not_has_none, .refl s⟩
  have hcomes (r : Result) (t : Store) : alone c d (.template v env 1) s r t ↔
      T.run (evaluations c env d) s r t :=
    Machine.comes_template (hT.mono fun _ h => h.1) hwalking .refl (List.forall_mem_nil _)
  have hE (B : Blind) := Machine.keptByAll_evaluations B c env d
  refine ⟨hcomes, fun w t h => ?_, fun hplaced hgives => ?_, fun hplaced hgives => ?_⟩
  · have hrun := (hcomes _ _).mp h
    exact ⟨Outline.placed_of_value hrun, Outline.run_fills hE hT.proper hs hlocated hrun⟩
  · obtain ⟨w, t, hrun⟩ := (Outline.run_of_gives hgives).1 hplaced
    exact ⟨w, t, (hcomes _ _).mpr hrun⟩
  · obtain ⟨t, hrun⟩ := (Outline.run_of_gives hgives).2 hplaced
    exact ⟨t, (hcomes _ _).mpr hrun⟩

/-- A template without cycles, in no vector of which a keyword is an item, has an outline. The
expander and the pass that settles stamps walk over it, and what a walk does to code it does at the
sites of the outline, where the operands stand. If the template still reads so whenever the
evaluator reads a part of it, the evaluator evaluates these operands from the left and fills the
template with what they come to. -/
theorem quasiquote_agrees {s : Store} {v : Value} (hs : s.All s.Located) (hv : s.Tree v)
    (hkeys : s.Throughout s.Unkeyed v) :
    ∃ T, Outlined s.Grows 1 v T ∧
      (∀ site ∈ T.sites [], s.part? site.position v = some site.operand) ∧
      (T.sites []).map Site.operand = T.operands ∧
      (∀ code code' atom, (∀ site ∈ T.sites [], code site.position site.operand =
        code' site.position site.operand) → T.walk code atom [] = T.walk code' atom []) ∧
      (∀ env room fuel, s.cells < fuel → Expansion.expandTemplate env room fuel 1 v s =
        T.walk (fun p => Expansion.expand env (room - p.levels)) (fun _ => pure) [] s) ∧
      (∀ bound depth, s.cells < depth → Renaming.template bound depth 1 v s =
        T.walk (fun p => Renaming.code bound (depth - p.length))
          (fun p => Renaming.strip (depth - p.length - 1)) [] s) ∧
      ∀ c env d, Outlined (Machine.Reads c ⟨.template v env 1, [], d, s⟩) 1 v T →
        Evaluated c env d v T s := by
  obtain ⟨T, hT⟩ := exists_outlined hv hkeys 1
  exact ⟨T, hT, hT.part? (.refl s) rfl, hT.proper.sites_operands [],
    fun _ _ _ h => Outline.walk_congr h,
    fun env room fuel hfuel => Expansion.expandTemplate_eq_walk hT hv.within hfuel,
    fun bound depth hdepth => Renaming.template_eq_walk hT hv.within hdepth,
    fun c env d hruns => hruns.evaluated hs hv.located⟩

def Store.ofPairs (pairs : List Pair) : Store :=
  { (Interpreter.bare {} "out").store with pairs := pairs.toArray }

section Stores

variable {pairs : List Pair}

theorem Store.all_ofPairs (h : ∀ p ∈ pairs, (ofPairs pairs).Located p.car ∧
    (ofPairs pairs).Located p.cdr) : (ofPairs pairs).All (ofPairs pairs).Located := by
  have hbare : (Interpreter.bare {} "out").store.All (Interpreter.bare {} "out").store.Located :=
    (locating.regimen.holds_bare {} "out" (.empty trivial) trivial).1
  have hleads : ∀ v, (Interpreter.bare {} "out").store.Located v → (ofPairs pairs).Located v :=
    fun v hv => hv.leads (Nat.zero_le _) (Nat.le_refl _)
  have hpair : ∀ a, (ofPairs pairs).Located ((ofPairs pairs).pairAt a).car ∧
      (ofPairs pairs).Located ((ofPairs pairs).pairAt a).cdr := by
    intro a
    by_cases ha : a < pairs.length
    · have hat : (ofPairs pairs).pairAt a = pairs[a] := by
        simp [ofPairs, pairAt, Array.getD, ha]
      rw [hat]
      exact h _ (List.getElem_mem ha)
    · rw [Store.Chain.pairAt_eq_default (by simpa [ofPairs] using ha)]
      exact ⟨trivial, trivial⟩
  exact { hbare.toRoots.mono hleads hleads hleads with
    car := fun a => (hpair a).1
    cdr := fun a => (hpair a).2
    item := fun a v hv => by cases hv }

theorem Store.unkeyed_ofPairs (v : Value) :
    (ofPairs pairs).Throughout (ofPairs pairs).Unkeyed v := by
  rintro w - a - x hx
  cases hx

end Stores

def splicing : Store := .ofPairs
  [⟨.pair 1, .pair 3⟩, ⟨.name "unquote-splicing", .pair 2⟩, ⟨.pair 4, .null⟩, ⟨.int 2, .null⟩,
    ⟨.name "quote", .pair 5⟩, ⟨.pair 6, .null⟩, ⟨.int 1, .null⟩]

theorem splicing_located : splicing.All splicing.Located :=
  Store.all_ofPairs (by simp [Store.ofPairs, Store.Located, Value.name])

theorem splicing_tree : splicing.Tree (.pair 0) := by
  have hnull : splicing.Tree .null := .leaf nofun nofun
  have hquoted : splicing.Tree (.pair 4) :=
    .pair (by decide) (.leaf nofun nofun) (.pair (by decide) (.pair (by decide)
      (.leaf nofun nofun) hnull) hnull)
  exact .pair (by decide) (.pair (by decide) (.leaf nofun nofun) (.pair (by decide) hquoted hnull))
    (.pair (by decide) (.leaf nofun nofun) hnull)

theorem splicing_grows {m : Machine} (h : Machine.Later (Interpreter.bare {} "out").context
    ⟨.template (.pair 0) ⟨1, [0]⟩ 1, [], 0, splicing⟩ m) : splicing.Grows m.store := by
  have hend : (Machine.step (Interpreter.bare {} "out").context)^[11]
      ⟨.template (.pair 0) ⟨1, [0]⟩ 1, [], 0, splicing⟩ =
      ⟨.value (.pair 8), [], 0, { splicing with
        pairs := (splicing.pairs.push ⟨.int 2, .null⟩).push ⟨.int 1, .pair 7⟩ }⟩ := by rfl
  obtain ⟨n, rfl⟩ := h
  rcases Nat.lt_or_ge n 11 with hn | hn
  · interval_cases n <;> first | exact .refl _ | exact Store.grows_push_pair _ _
  · obtain ⟨k, rfl⟩ := Nat.exists_eq_add_of_le' hn
    rw [Function.iterate_add_apply, hend, Function.iterate_fixed rfl]
    exact (Store.grows_push_pair _ _).trans (Store.grows_push_pair _ _)

/-- The items of a quoted list are spliced into a list that ends in a number. -/
theorem quasiquote_agrees_splicing : splicing.All splicing.Located ∧ splicing.Tree (.pair 0) ∧
    splicing.Throughout splicing.Unkeyed (.pair 0) ∧
    ∃ T, Outlined splicing.Grows 1 (.pair 0) T ∧
      Evaluated (Interpreter.bare {} "out").context ⟨1, [0]⟩ 0 (.pair 0) T splicing := by
  obtain ⟨T, hT, -, -, -, -, -, hevaluated⟩ :=
    quasiquote_agrees splicing_located splicing_tree (Store.unkeyed_ofPairs _)
  refine ⟨splicing_located, splicing_tree, Store.unkeyed_ofPairs _, T, hT,
    hevaluated _ _ _ (hT.mono ?_)⟩
  rintro _ ⟨_, _, _, _, _, hlater, -⟩
  exact splicing_grows hlater

/-- The list of an unquoted operand and a number. The operand assigns to the pair of the number. -/
def assigning : Store := .ofPairs
  [⟨.pair 1, .pair 3⟩, ⟨.name "unquote", .pair 2⟩, ⟨.pair 4, .null⟩, ⟨.int 2, .null⟩,
    ⟨.name "set-car!", .pair 5⟩, ⟨.pair 7, .pair 6⟩, ⟨.int 3, .null⟩, ⟨.name "quote", .pair 8⟩,
    ⟨.pair 3, .null⟩]

theorem assigning_located : assigning.All assigning.Located :=
  Store.all_ofPairs (by simp [Store.ofPairs, Store.Located, Value.name])

theorem assigning_tree : assigning.Tree (.pair 0) := by
  have hnull : assigning.Tree .null := .leaf nofun nofun
  have hlist : assigning.Tree (.pair 3) := .pair (by decide) (.leaf nofun nofun) hnull
  have hquoted : assigning.Tree (.pair 7) :=
    .pair (by decide) (.leaf nofun nofun) (.pair (by decide) hlist hnull)
  have hoperand : assigning.Tree (.pair 4) :=
    .pair (by decide) (.leaf nofun nofun) (.pair (by decide) hquoted
      (.pair (by decide) (.leaf nofun nofun) hnull))
  exact .pair (by decide) (.pair (by decide) (.leaf nofun nofun)
    (.pair (by decide) hoperand hnull)) hlist

/-- The value has the number that was assigned, not that of the template. -/
theorem not_fills_assigning : assigning.All assigning.Located ∧ assigning.Tree (.pair 0) ∧
    assigning.Throughout assigning.Unkeyed (.pair 0) ∧
    ∀ T, Outlined assigning.Grows 1 (.pair 0) T → T.Placed ∧
      ∃ w t, alone (Interpreter.bare {} "out").context 0 (.template (.pair 0) ⟨1, [0]⟩ 1) assigning
          (.value w) t ∧
        ∀ own es, ¬ T.Fills (evaluations (Interpreter.bare {} "out").context ⟨1, [0]⟩ 0) assigning t
          own es w := by
  refine ⟨assigning_located, assigning_tree, Store.unkeyed_ofPairs _, fun T hT => ?_⟩
  have hlist : Outlined assigning.Grows 1 (.pair 3) (.pair (.atom (.int 2)) (.atom .null)) :=
    .pair (fun s hs => (hs.quasiForm?_eq assigning_tree.cdr).trans (by rfl))
      (fun s hs => hs.pairAt_eq (by decide)) (.atom nofun nofun) (.atom nofun nofun)
  have houtline : Outlined assigning.Grows 1 (.pair 0)
      (.pair (.code .unquote (.pair 4)) (.pair (.atom (.int 2)) (.atom .null))) :=
    .pair (fun s hs => (hs.quasiForm?_eq assigning_tree).trans (by rfl))
      (fun s hs => hs.pairAt_eq (by decide))
      (.code rfl nofun fun s hs => (hs.quasiForm?_eq assigning_tree.car).trans (by rfl)) hlist
  obtain rfl := hT.unique houtline (.refl _)
  refine ⟨⟨.inr nofun, .inr trivial, trivial⟩, .pair 10, _, ⟨21, 0, rfl⟩, fun own es hfills => ?_⟩
  obtain ⟨_, _, x, y, -, hrow, -, hrest⟩ := (Outline.filled_pair rfl).mp hfills.filled
  obtain ⟨_, _, x', y', -, hrow', ⟨-, rfl⟩, -⟩ := (Outline.filled_pair rfl).mp hrest
  obtain ⟨a, ha, hpair⟩ := hrow.singleton
  obtain ⟨b, rfl, hpair'⟩ := hrow'.singleton
  cases ha
  have hcdr : Value.pair 9 = .pair b := congrArg Pair.cdr hpair
  cases hcdr
  have hcar : Value.int 3 = .int 2 := congrArg Pair.car hpair'
  cases hcar

end HygienicScheme
