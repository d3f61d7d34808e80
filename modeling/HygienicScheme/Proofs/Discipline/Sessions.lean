import HygienicScheme.Interpreter
import HygienicScheme.Proofs.Discipline.Evaluation

/-!
# Sessions

A session begins with the primitives alone. It evaluates forms, expanded or not, places data in the
store, defines names and takes what was written, and it goes on with the store as each of these
leaves it, whether it succeeds or fails. What a regimen says of the first store and of all that is
given to a session, it says of every state that the session comes to.
-/
namespace HygienicScheme

/-- What a session may be given, and in which states it may take a step. -/
structure Terms where
  datum : Datum → Prop
  value : Store → Value → Prop
  step : Machine → Prop

def Terms.free (T : Terms) : Terms := { T with step := fun _ => True }

namespace Machine

def idle (s : Store) : Machine := ⟨.value .unspecified, [], 0, s⟩

/-- What may come next in a session. An evaluation may be given up at any time. -/
inductive Next (c : Context) (T : Terms) (m : Machine) : Machine → Prop
  | step (h : T.step m) : Next c T m (m.step c)
  | place {d : Datum} (h : T.datum d) :
      Next c T m ⟨.value (d.place m.store).1, [], 0, (d.place m.store).2⟩
  | form {v expanded : Value} {s : Store} (hv : T.value m.store v)
      (h : Expansion.expandToplevel c.global v m.store = .ok expanded s) :
      Next c T m (start expanded c.global s)
  | refused {v : Value} {e : Error} {s : Store} (hv : T.value m.store v)
      (h : Expansion.expandToplevel c.global v m.store = .error e s) :
      Next c T m ⟨.error e, [], 0, s⟩
  | raw {v : Value} (hv : T.value m.store v) : Next c T m (start v c.global m.store)
  | define {v : Value} (name : String) (hv : T.value m.store v) :
      Next c T m (idle (Action.after (Action.define c.global (.user name) v m.store)))
  | takeOutput : Next c T m (idle { m.store with output := "" })

/-- The states that sessions on these terms come to. -/
def Reached (config : Config) (outputName : String) (T : Terms) (m : Machine) : Prop :=
  Relation.ReflTransGen (Next (Interpreter.bare config outputName).context T)
    (idle (Interpreter.bare config outputName).store) m

/-- A session in which every step may be taken keeps to the terms until it comes to a step that they
do not allow. -/
theorem Reached.of_free {config : Config} {outputName : String} {T : Terms} {m : Machine}
    (h : Reached config outputName T.free m) :
    Reached config outputName T m ∨ ∃ m', Reached config outputName T m' ∧ ¬ T.step m' := by
  induction h with
  | refl => exact .inl .refl
  | @tail m _ _ hnext ih =>
    rcases ih with hm | hm
    · cases hnext with
      | step =>
        by_cases hstep : T.step m
        · exact .inl (hm.tail (.step hstep))
        · exact .inr ⟨m, hm, hstep⟩
      | place h => exact .inl (hm.tail (.place h))
      | form hv h => exact .inl (hm.tail (.form hv h))
      | refused hv h => exact .inl (hm.tail (.refused hv h))
      | raw hv => exact .inl (hm.tail (.raw hv))
      | define name hv => exact .inl (hm.tail (.define name hv))
      | takeOutput => exact .inl (hm.tail .takeOutput)
    · exact .inr hm

end Machine

/-! The operations of an interpreter come to no other states. -/

namespace Interpreter

variable {config : Config} {outputName : String} {T : Terms} {i : Interpreter}

variable (config outputName T) in
def Visits (s : Store) : Prop := ∃ m, Machine.Reached config outputName T m ∧ m.store = s

variable (config outputName T) in
structure Follows (i : Interpreter) : Prop where
  context : i.context = (bare config outputName).context
  store : Visits config outputName T i.store

theorem Visits.next {s : Store} {m' : Machine} (h : Visits config outputName T s)
    (hm' : ∀ m, m.store = s → Machine.Next (bare config outputName).context T m m') :
    Machine.Reached config outputName T m' := by
  obtain ⟨m, hm, rfl⟩ := h
  exact hm.tail (hm' m rfl)

theorem follows_bare : (bare config outputName).Follows config outputName T :=
  ⟨rfl, _, .refl, rfl⟩

def Placeable (T : Terms) (d : Datum) : Prop :=
  T.datum d ∧ ∀ s, T.value (d.place s).2 (d.place s).1

section Evaluating

variable (hsteps : ∀ m, T.step m)

include hsteps

theorem visits_run {m : Machine} (n : Nat) (h : Machine.Reached config outputName T m) :
    Visits config outputName T (m.run (bare config outputName).context n).2 := by
  induction n generalizing m with
  | zero => exact ⟨m, h, rfl⟩
  | succ n ih =>
    unfold Machine.run
    cases m.outcome? with
    | some outcome => exact ⟨m, h, rfl⟩
    | none => exact ih (h.tail (.step (hsteps m)))

theorem visits_expandAndEvaluate {s : Store} {v : Value} (h : Visits config outputName T s)
    (hv : T.value s v) : Visits config outputName T
      ((bare config outputName).context.expandAndEvaluate v s).2 := by
  unfold Context.expandAndEvaluate
  cases hexpand : Expansion.expandToplevel (bare config outputName).context.global v s with
  | ok form t =>
    refine visits_run hsteps _ (h.next fun m hm => ?_)
    subst hm
    exact .form hv hexpand
  | error e t =>
    refine ⟨⟨.error e, [], 0, t⟩, h.next fun m hm => ?_, rfl⟩
    subst hm
    exact .refused hv hexpand

theorem visits_evaluateAll {forms : List Datum} {s : Store} (last : Outcome)
    (h : Visits config outputName T s) (hforms : ∀ d ∈ forms, Placeable T d) :
    Visits config outputName T
      ((bare config outputName).context.evaluateAll last forms s).2 := by
  induction forms generalizing s last with
  | nil => exact h
  | cons d more ih =>
    obtain ⟨hd, hmore⟩ := List.forall_mem_cons.mp hforms
    unfold Context.evaluateAll
    cases hplace : d.place s with
    | mk form t =>
      have hplaced : Visits config outputName T t := by
        refine ⟨⟨.value form, [], 0, t⟩, h.next fun m hm => ?_, rfl⟩
        have hnext := Machine.Next.place (c := (bare config outputName).context) (m := m) hd.1
        rwa [hm, hplace] at hnext
      have hform : T.value t form := by
        have hform := hd.2 s
        rwa [hplace] at hform
      have hnext := visits_expandAndEvaluate hsteps hplaced hform
      dsimp only
      cases hresult : (bare config outputName).context.expandAndEvaluate form t with
      | mk outcome u =>
        rw [hresult] at hnext
        cases outcome with
        | value v => exact ih _ hnext hmore
        | _ => exact hnext

theorem Follows.evalText (h : i.Follows config outputName T) (text : String)
    (hforms : ∀ forms, Reader.parseProgram text = .ok forms → ∀ d ∈ forms, Placeable T d) :
    (i.evalText text).2.Follows config outputName T := by
  unfold Interpreter.evalText
  cases hparse : Reader.parseProgram text with
  | error e => exact h
  | ok forms =>
    refine ⟨h.context, ?_⟩
    have hvisits := visits_evaluateAll hsteps (.value .unspecified) h.store (hforms forms hparse)
    rwa [← h.context] at hvisits

theorem Follows.evalForm {v : Value} (h : i.Follows config outputName T)
    (hv : T.value i.store v) : (i.evalForm v).2.Follows config outputName T := by
  obtain ⟨c, s⟩ := i
  obtain rfl := h.context
  have hvisits := visits_expandAndEvaluate hsteps h.store hv
  unfold Interpreter.evalForm
  exact ⟨rfl, hvisits⟩

theorem Follows.evalRaw {v : Value} (h : i.Follows config outputName T)
    (hv : T.value i.store v) : (i.evalRaw v).2.Follows config outputName T := by
  obtain ⟨c, s⟩ := i
  obtain rfl := h.context
  have hstart : Machine.Reached config outputName T
      (.start v (bare config outputName).context.global s) := by
    refine h.store.next fun m hm => ?_
    dsimp only at hm hv
    subst hm
    exact .raw hv
  have hvisits := visits_run hsteps Machine.allowance hstart
  unfold Interpreter.evalRaw
  exact ⟨rfl, hvisits⟩

theorem follows_new (config : Config) (outputName : String)
    (hforms : ∀ forms, Reader.parseProgram prelude = .ok forms → ∀ d ∈ forms, Placeable T d) :
    (new config outputName).Follows config outputName T := by
  unfold new
  dsimp only
  split
  · exact follows_bare.evalText hsteps prelude hforms
  · exact follows_bare

end Evaluating

theorem follows_texts (hsteps : ∀ m, T.step m) (config : Config) (outputName : String)
    (hforms : ∀ text forms, Reader.parseProgram text = .ok forms → ∀ d ∈ forms, Placeable T d)
    (texts : List String) :
    (texts.foldl (fun i text => (i.evalText text).2) (new config outputName)).Follows
      config outputName T := by
  have hnew : (new config outputName).Follows config outputName T :=
    follows_new hsteps config outputName (hforms prelude)
  generalize new config outputName = i at hnew
  induction texts generalizing i with
  | nil => exact hnew
  | cons text more ih => exact ih _ (hnew.evalText hsteps text (hforms text))

theorem Follows.expand {v : Value} (h : i.Follows config outputName T)
    (hv : T.value i.store v) : (i.expand v).2.Follows config outputName T := by
  obtain ⟨c, s⟩ := i
  obtain rfl := h.context
  unfold Interpreter.expand perform
  dsimp only
  cases hexpand : Expansion.expandToplevel (bare config outputName).context.global v s with
  | ok form t =>
    refine ⟨rfl, .start form (bare config outputName).context.global t, h.store.next ?_, rfl⟩
    rintro m rfl
    exact .form hv hexpand
  | error e t =>
    refine ⟨rfl, ⟨.error e, [], 0, t⟩, h.store.next ?_, rfl⟩
    rintro m rfl
    exact .refused hv hexpand

theorem Follows.define {v : Value} (h : i.Follows config outputName T) (name : String)
    (hv : T.value i.store v) : (i.define name v).2.Follows config outputName T := by
  obtain ⟨c, s⟩ := i
  obtain rfl := h.context
  have hnext : Machine.Reached config outputName T (.idle (Action.after
      (Action.define (bare config outputName).context.global (.user name) v s))) := by
    refine h.store.next ?_
    rintro m rfl
    exact .define name hv
  unfold Interpreter.define perform
  dsimp only
  cases hdefine : Action.define (bare config outputName).context.global (.user name) v s with
  | ok _ t | error _ t =>
    rw [hdefine] at hnext
    exact ⟨rfl, _, hnext, rfl⟩

theorem Follows.place {d : Datum} (h : i.Follows config outputName T) (hd : T.datum d) :
    (i.place d).2.Follows config outputName T := by
  obtain ⟨c, s⟩ := i
  refine ⟨h.context, ⟨.value (d.place s).1, [], 0, (d.place s).2⟩, h.store.next ?_, rfl⟩
  rintro m rfl
  exact .place hd

theorem Follows.takeOutput (h : i.Follows config outputName T) :
    i.takeOutput.2.Follows config outputName T := by
  obtain ⟨c, s⟩ := i
  refine ⟨h.context, .idle { s with output := "" }, h.store.next ?_, rfl⟩
  rintro m rfl
  exact .takeOutput

end Interpreter

mutual

def Datum.symbols : Datum → List Symbol
  | .symbol x => [x]
  | .pair car cdr => car.symbols ++ cdr.symbols
  | .vector items => Datum.allSymbols items
  | .null | .bool _ | .int _ | .float _ | .char _ | .string _ => []

def Datum.allSymbols : List Datum → List Symbol
  | [] => []
  | d :: more => d.symbols ++ Datum.allSymbols more

end

namespace EvaluationDiscipline

open Discipline

variable {D : EvaluationDiscipline}

mutual

theorem holds_place : ∀ {d : Datum} {s : Store}, (∀ x ∈ d.symbols, ∀ s, D.Data s (.symbol x)) →
    D.Holds s → (D.Holds (d.place s).2 ∧ D.Leads s (d.place s).2) ∧
      D.Data (d.place s).2 (d.place s).1
  | .null, s, _, hs | .bool _, s, _, hs | .int _, s, _, hs | .float _, s, _, hs
  | .char _, s, _, hs => ⟨⟨hs, D.refl s⟩, D.constant rfl nofun nofun nofun⟩
  | .string _, s, _, hs => ⟨D.string (s.strings + 1) hs, D.constant rfl nofun nofun nofun⟩
  | .symbol x, s, hx, hs => ⟨⟨hs, D.refl s⟩, hx x (by simp [Datum.symbols]) s⟩
  | .pair _ _, s, hx, hs => by
    obtain ⟨hcar, hcdr⟩ := List.forall_mem_append.mp hx
    obtain ⟨⟨ht, hst⟩, hv⟩ := holds_place hcar hs
    obtain ⟨⟨hu, htu⟩, hw⟩ := holds_place hcdr ht
    obtain ⟨⟨hr, hur⟩, hp⟩ := D.cons hu (D.data_leads htu hv) hw
    exact ⟨⟨hr, D.trans (D.trans hst htu) hur⟩, hp⟩
  | .vector items, s, hx, hs => by
    obtain ⟨⟨ht, hst⟩, hvs⟩ := holds_placeAll hx hs
    have hitems : ∀ v ∈ (Datum.placeAll items s).1.toArray.toList,
        D.Data (Datum.placeAll items s).2 v := by simpa using hvs
    obtain ⟨⟨hu, htu⟩, hv⟩ := D.vector ht hitems
    exact ⟨⟨hu, D.trans hst htu⟩, hv⟩

theorem holds_placeAll : ∀ {items : List Datum} {s : Store},
    (∀ x ∈ Datum.allSymbols items, ∀ s, D.Data s (.symbol x)) → D.Holds s →
    (D.Holds (Datum.placeAll items s).2 ∧ D.Leads s (Datum.placeAll items s).2) ∧
      ∀ v ∈ (Datum.placeAll items s).1, D.Data (Datum.placeAll items s).2 v
  | [], s, _, hs => ⟨⟨hs, D.refl s⟩, fun _ hv => nomatch hv⟩
  | _ :: _, s, hx, hs => by
    obtain ⟨hfirst, hmore⟩ := List.forall_mem_append.mp hx
    obtain ⟨⟨ht, hst⟩, hv⟩ := holds_place hfirst hs
    obtain ⟨⟨hu, htu⟩, hvs⟩ := holds_placeAll hmore ht
    exact ⟨⟨hu, D.trans hst htu⟩, List.forall_mem_cons.mpr ⟨D.data_leads htu hv, hvs⟩⟩

end

end EvaluationDiscipline

namespace Regimen

open Discipline BuildingDiscipline PrimitiveDiscipline EvaluationDiscipline Machine

variable {R : Regimen} {T : Terms} {c : Context} {m m' : Machine}

variable (R) in
structure Admits (T : Terms) : Prop where
  datum : ∀ {d s}, T.datum d → R.Holds s →
    (R.Holds (d.place s).2 ∧ R.Leads s (d.place s).2) ∧ R.Data (d.place s).2 (d.place s).1
  value : ∀ {s v}, T.value s v → R.Data s v ∧ R.Expandable s v
  step : ∀ {m}, T.step m → R.Allows m

theorem kept_idle {s : Store} (hs : R.Holds s) : (idle s).Kept R :=
  ⟨hs, ⟨unspecified, trivial⟩, by simp [idle]⟩

theorem steps_of_empty {s : Store} {task : Task} (hs : R.Holds s) (hst : R.Leads m.store s)
    (htask : task.Kept R s) : R.Steps m ⟨task, [], 0, s⟩ where
  kept := ⟨hs, htask, by simp⟩
  leads := hst
  stack := ⟨[], [], rfl, List.nil_suffix, .inl rfl⟩

theorem next (hT : R.Admits T) (hglobal : R.Scope c.global) (hm : m.Kept R) (h : Next c T m m') :
    R.Steps m m' := by
  have hexpanded {v : Value} (hv : T.value m.store v) :=
    R.expanded c.global hglobal hm.store (hT.value hv).1 (hT.value hv).2
  cases h with
  | step h => exact step hglobal hm (hT.step h)
  | place h =>
    obtain ⟨⟨hs, hst⟩, hv⟩ := hT.datum h hm.store
    exact steps_of_empty hs hst ⟨hv, trivial⟩
  | form hv h =>
    obtain ⟨⟨hs, hst⟩, hform⟩ := (hexpanded hv).of_ok h
    exact steps_of_empty hs hst ⟨hform, hglobal⟩
  | refused hv h =>
    obtain ⟨hs, hst⟩ := (hexpanded hv).of_error h
    exact steps_of_empty hs hst ⟨trivial, trivial⟩
  | raw hv => exact steps_of_empty hm.store (R.refl _) ⟨R.form_data (hT.value hv).1, hglobal⟩
  | define name hv =>
    have hdefine : R.Keeps (Action.define c.global (.user name) _) m.store Anything :=
      keeps_define_binding hm.store (R.variable_unstamped (.user name)) (hT.value hv).1
    exact steps_of_empty hdefine.1.1 hdefine.1.2 ⟨unspecified, trivial⟩
  | takeOutput =>
    obtain ⟨hs, hst⟩ := R.emit "" hm.store
    exact steps_of_empty hs hst ⟨unspecified, trivial⟩

theorem session (hT : R.Admits T) (hglobal : R.Scope c.global) (hm : m.Kept R)
    (h : Relation.ReflTransGen (Next c T) m m') : m'.Kept R ∧ R.Leads m.store m'.store := by
  induction h with
  | refl => exact ⟨hm, R.refl _⟩
  | tail _ hnext ih =>
    have hstep := next hT hglobal ih.1 hnext
    exact ⟨hstep.kept, R.trans ih.2 hstep.leads⟩

theorem holds_bare (config : Config) (outputName : String) (h : R.Holds .empty)
    (hroot : R.Scope ⟨0, []⟩) : R.Holds (Interpreter.bare config outputName).store ∧
      R.Scope (Interpreter.bare config outputName).context.global := by
  have hprimitives : ∀ b ∈ primitiveBindings, R.Data .empty b.2 := by
    intro b hb
    obtain ⟨p, -, rfl⟩ := List.mem_map.mp hb
    exact R.constant rfl nofun nofun nofun
  have hframe := R.child ⟨0, []⟩ h hroot hprimitives
  have hglobal := R.child ⟨0, []⟩ hframe.1.1 hroot (List.forall_mem_nil _)
  exact ⟨hglobal.1.1, hglobal.2⟩

theorem kept_of_reached {config : Config} {outputName : String} (hT : R.Admits T)
    (hempty : R.Holds .empty) (hroot : R.Scope ⟨0, []⟩) (h : Reached config outputName T m) :
    m.Kept R := by
  obtain ⟨hstore, hglobal⟩ := holds_bare config outputName hempty hroot
  exact (session hT hglobal (kept_idle hstore) h).1

end Regimen

end HygienicScheme
