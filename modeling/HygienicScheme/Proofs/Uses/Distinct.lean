import HygienicScheme.Proofs.Discipline.Sessions
import HygienicScheme.Proofs.Evaluation.Effects
import HygienicScheme.Proofs.Stamps.Unstamped
import HygienicScheme.Proofs.Store.Bindings
import HygienicScheme.Proofs.SyntaxRules.Filled
import HygienicScheme.Proofs.Uses.Recorded

/-!
# No two uses share a stamp

Every expansion of a session, whether the host asks for it or the program by `eval`, has a phase
that no expansion before it had, and it numbers its uses. So the uses of a session have stamps of
their own, as long as no expansion runs out of indices, and so have the identifiers they introduce.
-/
namespace HygienicScheme

namespace Machine

open Expansion

variable {c : Context} {T : Terms} {m m' m'' : Machine} {s t : Store}

theorem phase_step (hform : m.expanding? = none) : (m.step c).store.phase = m.store.phase := by
  cases (step_effect c m).1 with
  | quiet h => exact h.phase_eq
  | call _ hs h => exact h.phase_eq.trans hs.phase_eq
  | assign _ h =>
    rw [h]
    rfl
  | @define x v env s hdefines =>
    obtain ⟨k, d, hstep⟩ := hdefines.step c
    rw [hstep, perform_store, bindDefinition_outcome, ← hdefines.quiet.phase_eq]
    split <;> rfl
  | expand h => cases hform.symm.trans h

/-- What may come next in a session, and the uses that are transcribed in an expansion that comes
before it. -/
inductive NextUses (c : Context) (T : Terms) (m : Machine) : List (List MacroUse) → Machine → Prop
  | step (h : T.step m) (hform : m.expanding? = none) : NextUses c T m [] (m.step c)
  | eval {form : Value} (h : T.step m) (hform : m.expanding? = some form) :
      NextUses c T m [usesOf c.global form m.store] (m.step c)
  | place {d : Datum} (h : T.datum d) :
      NextUses c T m [] ⟨.value (d.place m.store).1, [], 0, (d.place m.store).2⟩
  | form {v expanded : Value} {s : Store} (hv : T.value m.store v)
      (h : expandToplevel c.global v m.store = .ok expanded s) :
      NextUses c T m [usesOf c.global v m.store] (start expanded c.global s)
  | refused {v : Value} {e : Error} {s : Store} (hv : T.value m.store v)
      (h : expandToplevel c.global v m.store = .error e s) :
      NextUses c T m [usesOf c.global v m.store] ⟨.error e, [], 0, s⟩
  | raw {v : Value} (hv : T.value m.store v) : NextUses c T m [] (start v c.global m.store)
  | define {v : Value} (name : String) (hv : T.value m.store v) : NextUses c T m []
      (idle (Action.after (Action.define c.global (.user name) v m.store)))
  | takeOutput : NextUses c T m [] (idle { m.store with output := "" })

theorem next_iff_nextUses : Next c T m m' ↔ ∃ uses, NextUses c T m uses m' := by
  constructor
  · intro h
    cases h with
    | step h =>
      cases hform : m.expanding? with
      | none => exact ⟨_, .step h hform⟩
      | some form => exact ⟨_, .eval h hform⟩
    | place h => exact ⟨_, .place h⟩
    | form hv h => exact ⟨_, .form hv h⟩
    | refused hv h => exact ⟨_, .refused hv h⟩
    | raw hv => exact ⟨_, .raw hv⟩
    | define name hv => exact ⟨_, .define name hv⟩
    | takeOutput => exact ⟨_, .takeOutput⟩
  · rintro ⟨_, h⟩
    cases h with
    | step h _ | eval h _ => exact .step h
    | place h => exact .place h
    | form hv h => exact .form hv h
    | refused hv h => exact .refused hv h
    | raw hv => exact .raw hv
    | define name hv => exact .define name hv
    | takeOutput => exact .takeOutput

/-- A session and the uses of its expansions, one list for each expansion. -/
inductive Traced (c : Context) (T : Terms) (m : Machine) : List (List MacroUse) → Machine → Prop
  | begin : Traced c T m [] m
  | next {log uses : List (List MacroUse)} {m' m'' : Machine} (h : Traced c T m log m')
      (hnext : NextUses c T m' uses m'') : Traced c T m (log ++ uses) m''

theorem reflTransGen_iff_traced :
    Relation.ReflTransGen (Next c T) m m' ↔ ∃ log, Traced c T m log m' := by
  constructor
  · intro h
    induction h with
    | refl => exact ⟨[], .begin⟩
    | tail _ hnext ih =>
      obtain ⟨log, hlog⟩ := ih
      obtain ⟨uses, huses⟩ := next_iff_nextUses.mp hnext
      exact ⟨_, hlog.next huses⟩
  · rintro ⟨log, h⟩
    induction h with
    | begin => exact .refl
    | next _ hnext ih => exact ih.tail (next_iff_nextUses.mpr ⟨_, hnext⟩)

structure Stamped (uses : List MacroUse) (s : Store) : Prop where
  nodup : (uses.map MacroUse.stamp).Nodup
  phase_pos : ∀ u ∈ uses, 1 ≤ u.phase
  phase_le : ∀ u ∈ uses, u.phase ≤ s.phase

theorem Stamped.keep {uses : List MacroUse} (h : Stamped uses s) (hst : t.phase = s.phase) :
    Stamped uses t where
  nodup := h.nodup
  phase_pos := h.phase_pos
  phase_le := by
    rw [hst]
    exact h.phase_le

theorem Stamped.expand {uses : List MacroUse} {env : Environment} {form : Value}
    (h : Stamped uses s) (hfew : (usesOf env form s).length < maxUses) :
    Stamped (uses ++ usesOf env form s) (Action.after (expandToplevel env form s)) := by
  have hphase : (Action.after (expandToplevel env form s)).phase = s.phase + 1 :=
    (records_expandToplevel env form s).2.phase_eq
  refine ⟨?_, ?_, ?_⟩
  · rw [List.map_append, List.nodup_append]
    refine ⟨h.nodup, usesOf_nodup hfew, ?_⟩
    rintro _ hu _ hu' rfl
    obtain ⟨u, hu, hstamp⟩ := List.mem_map.mp hu
    obtain ⟨u', hu', hstamp'⟩ := List.mem_map.mp hu'
    have hle := h.phase_le u hu
    have hnew := phase_usesOf hu'
    have heq : u.phase = u'.phase := congrArg Prod.fst (hstamp.trans hstamp'.symm)
    omega
  · refine List.forall_mem_append.mpr ⟨h.phase_pos, fun u hu => ?_⟩
    rw [phase_usesOf hu]
    omega
  · rw [hphase]
    refine List.forall_mem_append.mpr ⟨fun u hu => ?_, fun u hu => ?_⟩
    · have hle := h.phase_le u hu
      omega
    · rw [phase_usesOf hu]
      omega

/-- The uses of a session in which no expansion runs out of indices have stamps of their own. -/
theorem Traced.stamped {log : List (List MacroUse)} (h : Traced c T m log m')
    (hfew : ∀ uses ∈ log, uses.length < maxUses) : Stamped log.flatten m'.store := by
  induction h with
  | begin => exact ⟨List.nodup_nil, by simp, by simp⟩
  | @next log uses m' m'' _ hnext ih =>
    obtain ⟨hlog, huses⟩ := List.forall_mem_append.mp hfew
    have hm' := ih hlog
    have hexpanded : ∀ form, uses = [usesOf c.global form m'.store] →
        m''.store = Action.after (expandToplevel c.global form m'.store) →
        Stamped (log ++ uses).flatten m''.store := by
      rintro form rfl hstore
      rw [List.flatten_append, List.flatten_singleton, hstore]
      exact hm'.expand (huses _ (List.mem_singleton_self _))
    have hstill : uses = [] → m''.store.phase = m'.store.phase →
        Stamped (log ++ uses).flatten m''.store := by
      rintro rfl hphase
      rw [List.append_nil]
      exact hm'.keep hphase
    cases hnext with
    | step _ hform => exact hstill rfl (phase_step hform)
    | eval _ hform => exact hexpanded _ rfl (step_expanding hform)
    | @place d _ => exact hstill rfl (d.quiet_place m'.store).phase_eq
    | form _ h => exact hexpanded _ rfl (congrArg Action.after h).symm
    | refused _ h => exact hexpanded _ rfl (congrArg Action.after h).symm
    | raw _ => exact hstill rfl rfl
    | define name _ =>
      refine hstill rfl ?_
      rw [define_outcome]
      split <;> rfl
    | takeOutput => exact hstill rfl rfl

end Machine

namespace MacroUse

variable {u u' : MacroUse} {y : Symbol}

def Introduces (u : MacroUse) (y : Symbol) : Prop :=
  ∃ (s : Store) (x : Symbol), u.introduce s x = y ∧ y.isStamped = true

theorem introduce_stamped {s : Store} {x : Symbol} (h : (u.introduce s x).isStamped = true) :
    u.introduce s x = x.stamp u.phase u.index := by
  unfold introduce at h ⊢
  split at h
  · cases h
  · rename_i hx
    rw [if_neg hx]

theorem Introduces.stamp_eq (h : u.Introduces y) : (y.phase, y.useIndex) = u.stamp := by
  obtain ⟨s, x, rfl, hy⟩ := h
  rw [introduce_stamped hy]
  rfl

theorem isStamped_introduce (hu : 1 ≤ u.phase) (s : Store) (x : Symbol) :
    (u.introduce s x).isStamped = !(u.transformer.isLiteral x || s.isKeyword u.env x) := by
  have hphase : u.phase ≠ Symbol.userPhase := by
    rw [Symbol.userPhase]
    omega
  unfold introduce
  cases u.transformer.isLiteral x || s.isKeyword u.env x with
  | true => rfl
  | false => exact bne_iff_ne.mpr hphase

end MacroUse

/-- The uses keep apart what they introduce, and leave alone what is given to them. -/
structure StampsApart (uses : List MacroUse) : Prop where
  nodup : (uses.map MacroUse.stamp).Nodup
  phase_pos : ∀ u ∈ uses, 1 ≤ u.phase
  /-- All identifiers that a template brings are stamped but literals and keywords. -/
  stamped : ∀ u ∈ uses, ∀ s x,
    (u.introduce s x).isStamped = !(u.transformer.isLiteral x || s.isKeyword u.env x)
  /-- Two uses introduce no identifier in common, whatever it is called. -/
  apart : uses.Pairwise fun u u' => ∀ y, u.Introduces y → ¬ u'.Introduces y
  foreign : ∀ u ∈ uses, ∀ name, ¬ u.Introduces (.user name)
  /-- Where a template has a variable, its instance has what the variable is bound to. -/
  substituted : ∀ u ∈ uses, ∀ p bs s t v, u.transcribe p bs s = .ok v t → u.Filled s t p bs v

/-- The uses of a session in which no expansion has as many uses as there are indices are kept
apart, and what is taken for its uses is what expansion transcribes. -/
theorem stampsApart_of_traced {config : Config} {outputName : String} {T : Terms} {m : Machine}
    {log : List (List MacroUse)}
    (h : Machine.Traced (Interpreter.bare config outputName).context T
      (Machine.idle (Interpreter.bare config outputName).store) log m)
    (hfew : ∀ uses ∈ log, uses.length < Expansion.maxUses) :
    Expansion.RecordsExpansion ∧ StampsApart log.flatten := by
  obtain ⟨hnodup, hpos, -⟩ := h.stamped hfew
  refine ⟨Expansion.recordsExpansion, ?_⟩
  exact {
    nodup := hnodup
    phase_pos := hpos
    stamped := fun u hu => MacroUse.isStamped_introduce (hpos u hu)
    apart := by
      refine (List.pairwise_map.mp hnodup).imp fun hne y hy hy' => hne ?_
      rw [← hy.stamp_eq, hy'.stamp_eq]
    foreign := fun u _ name ⟨_, _, _, hstamped⟩ => Bool.false_ne_true hstamped
    substituted := fun u _ p bs s t v hv => (MacroUse.fills_transcribe p bs s t v rfl hv).2.2 }

namespace Quoting

open Expansion

/-- Holds `((m) (m))` behind the transformer of `m`. -/
def readyTwice : Store :=
  { defined with
    pairs := defining.pairs ++ #[⟨.name "m", .null⟩, ⟨.name "m", .null⟩, ⟨.pair 12, .null⟩,
      ⟨.pair 11, .pair 13⟩] }

/-- Holds `(quote tmp)` with the stamp of the first use. -/
def usedOnce : Store :=
  { started readyTwice with
    pairs := readyTwice.pairs ++ #[⟨.symbol ((Symbol.user "tmp").stamp 2 0), .null⟩,
      ⟨.name "quote", .pair 15⟩]
    uses := 1 }

/-- Holds it with the stamp of the second use as well. -/
def usedTwice : Store :=
  { usedOnce with
    pairs := usedOnce.pairs ++ #[⟨.symbol ((Symbol.user "tmp").stamp 2 1), .null⟩,
      ⟨.name "quote", .pair 17⟩]
    uses := 2 }

theorem expand_call {s t : Store} {a b : Address} {room : Nat} {items : List Value}
    (hlist : s.splitList? (.pair a) = some ([.name "m"], .null))
    (hhead : headOf ⟨1, [0]⟩ [.name "m"] s = .use transformer)
    (htranscribe : transcribe ⟨1, [0]⟩ transformer (.pair a) s = .ok (.pair b) t)
    (hbrought : t.splitList? (.pair b) = some (items, .null))
    (hquote : headOf ⟨1, [0]⟩ items t = .quote) :
    expand ⟨1, [0]⟩ (room + 2) (.pair a) s = .ok (.pair b) t := by
  rw [expand_list hlist, hhead]
  refine (Action.bind_ok htranscribe _).trans ?_
  rw [expand_list hbrought, hquote]
  rfl

theorem uses_twofold :
    (Action.after (expandToplevel ⟨1, [0]⟩ (.pair 14) readyTwice)).uses = 2 := by
  have hfirst : expand ⟨1, [0]⟩ maxDepth (.pair 11) (started readyTwice) =
      .ok (.pair 16) usedOnce := expand_call rfl rfl rfl rfl rfl
  have hsecond : expand ⟨1, [0]⟩ maxDepth (.pair 12) usedOnce = .ok (.pair 18) usedTwice :=
    expand_call rfl rfl rfl rfl rfl
  have hitems : [Value.pair 11, .pair 12].mapM (expand ⟨1, [0]⟩ maxDepth) (started readyTwice) =
      .ok [.pair 16, .pair 18] usedTwice := by
    have hmore : [Value.pair 12].mapM (expand ⟨1, [0]⟩ maxDepth) usedOnce =
        .ok [.pair 18] usedTwice := by
      rw [List.mapM_cons]
      exact Action.bind_ok hsecond _
    rw [List.mapM_cons]
    exact (Action.bind_ok hfirst _).trans (Action.bind_ok hmore _)
  have hexpand : expand ⟨1, [0]⟩ (maxDepth + 1) (.pair 14) (started readyTwice) =
      (liftM (Build.listWithTail [.pair 16, .pair 18] .null) : Action Value) usedTwice := by
    have hlist : (started readyTwice).splitList? (.pair 14) =
        some ([.pair 11, .pair 12], .null) := rfl
    rw [expand_list hlist]
    exact Action.bind_ok hitems _
  rw [expandToplevel_eq, Action.bind_ok hexpand]
  exact (SyntaxDiscipline.keeps_renameIntroduced (D := counting) trivial trivial).1.2.2

theorem traced_twofold : ∃ m, Machine.Traced (Interpreter.bare {} "out").context textTerms
    (Machine.idle (Interpreter.bare {} "out").store)
    [usesOf ⟨1, [0]⟩ (.pair 10) defining, usesOf ⟨1, [0]⟩ (.pair 14) readyTwice] m := by
  have hdefinition : definition.Plain := by decide
  have hcalls : (Datum.list [.list [.name "m"], .list [.name "m"]]).Plain := by decide
  have hform := (placeable_plain hdefinition).2 (Interpreter.bare {} "out").store
  have hplaced : Machine.Traced (Interpreter.bare {} "out").context textTerms
      (Machine.idle (Interpreter.bare {} "out").store) []
      ⟨.value (definition.place (Interpreter.bare {} "out").store).1, [], 0,
        (definition.place (Interpreter.bare {} "out").store).2⟩ :=
    .next .begin (.place hdefinition)
  rw [place_definition] at hform hplaced
  have hready := (hplaced.next (.form hform expand_definition)).next (.place hcalls)
  have hcode := (placeable_plain hcalls).2 defined
  cases hexpand : expandToplevel ⟨1, [0]⟩ (.pair 14) readyTwice with
  | ok v t => exact ⟨_, hready.next (.form hcode hexpand)⟩
  | error e t => exact ⟨_, hready.next (.refused hcode hexpand)⟩

/-- The two uses of the session have stamps of their own. -/
theorem stampsApart_of_traced_twofold : RecordsExpansion ∧
    StampsApart (usesOf ⟨1, [0]⟩ (.pair 10) defining ++ usesOf ⟨1, [0]⟩ (.pair 14) readyTwice) ∧
      (usesOf ⟨1, [0]⟩ (.pair 10) defining ++ usesOf ⟨1, [0]⟩ (.pair 14) readyTwice).length = 2 := by
  obtain ⟨m, hm⟩ := traced_twofold
  have hdefinition : (usesOf ⟨1, [0]⟩ (.pair 10) defining).length = 0 := by
    have huses := (records_expandToplevel ⟨1, [0]⟩ (.pair 10) defining).2.uses_eq
    rw [expand_definition] at huses
    simp only [Action.after, defined, started, Store.install, Store.modifyFrame, maxUses] at huses
    omega
  have hcalls : (usesOf ⟨1, [0]⟩ (.pair 14) readyTwice).length = 2 := by
    have huses := (records_expandToplevel ⟨1, [0]⟩ (.pair 14) readyTwice).2.uses_eq
    rw [uses_twofold] at huses
    simp only [started, maxUses] at huses
    omega
  obtain ⟨hrecords, hapart⟩ := stampsApart_of_traced hm (by simp [hdefinition, hcalls, maxUses])
  rw [List.flatten_cons, List.flatten_singleton] at hapart
  exact ⟨hrecords, hapart, by rw [List.length_append, hdefinition, hcalls]⟩

end Quoting

end HygienicScheme
