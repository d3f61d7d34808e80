import HygienicScheme.Proofs.Discipline.Blind
import HygienicScheme.Proofs.Evaluation.Frames
import HygienicScheme.Proofs.Store.Spines
import HygienicScheme.Proofs.Store.Everywhere

/-!
# Calls of closures

Every closure was made from a parameter list, whichever form made it, and it stays as it was made.
So its identifiers are different wherever it is met, and a call of it fails for the number of its
arguments alone: one that is taken binds all of them in a frame of its own.
-/
namespace HygienicScheme

open Procedure

namespace Store

variable {s t u : Store} {v : Value} {a : Address} {c : Closure}

def Callable (s : Store) (v : Value) : Prop :=
  ∀ a, v = .closure a → ∃ c, s.closures[a]? = some c ∧ c.WellFormed

def KeepsClosures (s t : Store) : Prop :=
  ∀ (a : Address) (c : Closure), s.closures[a]? = some c → t.closures[a]? = some c

theorem KeepsClosures.of_eq (h : t.closures = s.closures) : s.KeepsClosures t := fun a c hc => by
  rwa [h]

theorem KeepsClosures.trans (h : s.KeepsClosures t) (k : t.KeepsClosures u) : s.KeepsClosures u :=
  fun a c hc => k a c (h a c hc)

theorem keepsClosures_push (c : Closure) :
    s.KeepsClosures { s with closures := s.closures.push c } := by
  intro a made ha
  obtain ⟨hlt, -⟩ := Array.getElem?_eq_some_iff.mp ha
  rw [Array.getElem?_push, if_neg (Nat.ne_of_lt hlt), ha]

theorem Callable.keeps (h : s.Callable v) (hst : s.KeepsClosures t) : t.Callable v := fun a hv =>
  have ⟨c, hc, hwell⟩ := h a hv
  ⟨c, hst a c hc, hwell⟩

theorem callable_of_ne (h : ∀ a, v ≠ .closure a) : s.Callable v := fun a hv => absurd hv (h a)

theorem callable_push (hc : c.WellFormed) :
    ({ s with closures := s.closures.push c } : Store).Callable (.closure s.closures.size) := by
  rintro a ⟨⟩
  exact ⟨c, by simp, hc⟩

end Store

open Store (KeepsClosures callable_of_ne) in
def enclosing : Blind where
  Holds s := s.All s.Callable
  Data := Store.Callable
  Leads := KeepsClosures
  refl _ := .of_eq rfl
  trans := .trans
  data_leads hst hv := hv.keeps hst
  constant _ _ _ hv := callable_of_ne hv
  name _ := callable_of_ne (by simp [Value.name])
  slot hs _ hw := hs.slot hw
  cons hs hcar hcdr := ⟨⟨hs.push_pair hcar hcdr, .of_eq rfl⟩, callable_of_ne (by simp)⟩
  vector hs hitems := ⟨⟨hs.push_vector hitems, .of_eq rfl⟩, callable_of_ne (by simp)⟩
  bound hs _ hb := hs.binding _ _ hb
  promised a hs := hs.promise a
  promise hs hv := ⟨⟨hs.push_promise hv, .of_eq rfl⟩, callable_of_ne (by simp)⟩
  child _ hs _ hbindings := ⟨⟨hs.push_frame hbindings, .of_eq rfl⟩, trivial⟩
  setPair hs _ hcar hcdr := ⟨hs.modify_pair hcar hcdr, .of_eq rfl⟩
  setVector hs _ hitems := ⟨hs.modify_vector hitems, .of_eq rfl⟩
  settle _ hs _ hv := ⟨hs.set_promise hv, .of_eq rfl⟩
  bind f x _ hs hv := ⟨hs.bind f x hv, .of_eq rfl⟩
  string _ hs := ⟨{ hs with }, .of_eq rfl⟩
  emit _ hs := ⟨{ hs with }, .of_eq rfl⟩
  exit hs := ⟨⟨{ hs with }, .of_eq rfl⟩, callable_of_ne (by simp)⟩
  symbol _ _ := callable_of_ne (by simp)
  use hs := ⟨⟨{ hs with }, .of_eq rfl⟩, trivial⟩
  phase hs := ⟨{ hs with }, .of_eq rfl⟩
  install env _ hs _ _ hm := ⟨hs.install env hm, .of_eq rfl⟩
  constants hs hm v hv := hs.constant _ _ hm v hv
  body a hs _ := hs.body a
  closure hs _ hwell hbody :=
    have hst := Store.keepsClosures_push _
    ⟨⟨(hs.push_closure hbody).mono fun _ hv => hv.keeps hst, hst⟩, Store.callable_push hwell⟩

/-- Sessions that are given values without closures of other sessions. -/
def callableTerms : Terms where
  datum _ := True
  value s v := s.Callable v
  step _ := True

theorem enclosing_admits : enclosing.regimen.Admits callableTerms where
  datum _ hs := EvaluationDiscipline.holds_place (fun _ _ _ => Store.callable_of_ne nofun) hs
  value hv := ⟨hv, trivial⟩
  step _ := enclosing.allows _

theorem placeable_callable (d : Datum) : Interpreter.Placeable callableTerms d := by
  refine ⟨trivial, fun s => Store.callable_of_ne fun a h => ?_⟩
  cases d <;> cases h

theorem follows_texts_callable (config : Config) (outputName : String) (texts : List String) :
    (texts.foldl (fun i text => (i.evalText text).2) (Interpreter.new config outputName)).Follows
      config outputName callableTerms :=
  Interpreter.follows_texts (fun _ => trivial) config outputName
    (fun _ _ _ d _ => placeable_callable d) texts

namespace Closure

variable {c : Closure} {args : List Value} {s t : Store} {env : Environment}

structure Opens (c : Closure) (args : List Value) (s : Store) (env : Environment) (t : Store) :
    Prop where
  parent : env.parent? = some c.env
  frame : env.frame = s.frames.size
  bound : ∃ extra u, s.MakesList (args.drop c.params.length) extra u ∧
    t = { u with frames := u.frames.push ⟨c.bindings args extra, []⟩ }
  required : ∀ i (hi : i < c.params.length), t.bound? env.frame c.params[i] = args[i]?
  rest : ∀ x ∈ c.rest, ∃ v, t.bound? env.frame x = some v ∧
    t.properList? v = some (args.drop c.params.length)

/-- What a call of the closure comes to, for all arguments and in every store. -/
structure Binds (c : Closure) : Prop extends c.WellFormed where
  opens : ∀ args s, ¬ c.Refuses args.length →
    ∃ env t, Procedure.bind c args s = .ok env t ∧ c.Opens args s env t
  fails : ∀ args s e t, Procedure.bind c args s = .error e t ↔
    c.Refuses args.length ∧ e = .arity c.name (arity c) args.length ∧ t = s

theorem WellFormed.keys (h : c.WellFormed) (hlength : c.params.length ≤ args.length)
    (extra : Value) : ((c.bindings args extra).map Prod.fst).Nodup := by
  have hrest : c.rest.toList.map (Prod.fst ∘ fun x => (x, extra)) = c.rest.toList := List.map_id _
  rw [bindings, List.map_append, List.map_fst_zip hlength, List.map_map, hrest]
  exact h.distinct

theorem WellFormed.found (h : c.WellFormed) (hlength : c.params.length ≤ args.length)
    {x : Symbol} {v extra : Value} (hmem : (x, v) ∈ c.bindings args extra) :
    Store.bound? { s with frames := s.frames.push ⟨c.bindings args extra, []⟩ } s.frames.size x =
      some v := by
  have hframe : ({ s with frames := s.frames.push ⟨c.bindings args extra, []⟩ } : Store).frameAt
      s.frames.size = ⟨c.bindings args extra, []⟩ := by
    simp [Store.frameAt, Array.getD_eq_getD_getElem?]
  rw [Store.bound?, hframe]
  exact SyntaxRules.lookup_of_mem (h.keys hlength extra) hmem

theorem WellFormed.opens (h : c.WellFormed) (haccepts : ¬ c.Refuses args.length) :
    ∃ env t, Procedure.bind c args s = .ok env t ∧ c.Opens args s env t := by
  have hlist := Build.list_makes (args.drop c.params.length) s
  have hlength : c.params.length ≤ args.length := by
    unfold Refuses at haccepts
    omega
  refine ⟨_, _, bind_distinct h.distinct haccepts, rfl, ?_, ⟨_, _, hlist, rfl⟩, ?_, ?_⟩
  · obtain ⟨new, -, hframes⟩ := hlist.pairs
    exact congrArg (·.frames.size) hframes
  · intro i hi
    rw [List.getElem?_eq_getElem (Nat.lt_of_lt_of_le hi hlength)]
    refine h.found hlength (List.mem_append_left _ ?_)
    have hzip : i < (c.params.zip args).length := by
      rw [List.length_zip]
      omega
    exact List.getElem_zip (h := hzip) ▸ List.getElem_mem hzip
  · intro x hx
    have hmem : (x, (Build.list (args.drop c.params.length) s).1) ∈
        c.rest.toList.map (·, (Build.list (args.drop c.params.length) s).1) :=
      List.mem_map.mpr ⟨x, Option.mem_toList.mpr hx, rfl⟩
    exact ⟨_, h.found hlength (List.mem_append_right _ hmem),
      Store.properList?_eq_some.mpr (hlist.list.chain.of_pairs_eq rfl)⟩

theorem bind_refused (h : c.Refuses args.length) :
    Procedure.bind c args s = .error (.arity c.name (arity c) args.length) s := by
  rw [Procedure.bind, if_neg (mt accepts_iff.mp (not_not_intro h))]
  rfl

theorem WellFormed.binds (h : c.WellFormed) : c.Binds where
  toWellFormed := h
  opens _ _ := h.opens
  fails args s e t := by
    by_cases hrefuses : c.Refuses args.length
    · rw [bind_refused hrefuses]
      constructor
      · rintro ⟨⟩
        exact ⟨hrefuses, rfl, rfl⟩
      · rintro ⟨-, rfl, rfl⟩
        rfl
    · obtain ⟨env, u, hbind, -⟩ := h.opens (s := s) hrefuses
      rw [hbind]
      exact ⟨nofun, fun h => absurd h.1 hrefuses⟩

end Closure

namespace Machine

variable {m : Machine} {config : Config} {outputName : String}

/-- In every state that a session comes to, all closures anywhere bind their parameters. -/
theorem closures_of_reached (h : Reached config outputName callableTerms m) :
    m.All fun v => ∀ a, v = .closure a →
      ∃ c, m.store.closures[a]? = some c ∧ c.Binds := by
  have hkept :=
    Regimen.kept_of_reached enclosing_admits (.empty (Store.callable_of_ne nofun)) trivial h
  have hall : m.All m.store.Callable :=
    ⟨hkept.store, hkept.task.all, fun w hw => (hkept.stack w hw).all⟩
  refine hall.mono fun v hv a ha => ?_
  obtain ⟨c, hc, hwell⟩ := hv a ha
  exact ⟨c, hc, hwell.binds⟩

def variadic : Datum :=
  .list [.list [.name "lambda", .pair (.name "first") (.name "more"), .name "more"],
    .int 1, .int 2, .int 3]

def callee? : Task → Option (Address × Nat)
  | .apply (.closure a) args => some (a, args.length)
  | _ => none

/-- Here a closure is about to be called with two arguments more than it has names for. -/
theorem closures_of_reached_variadic :
    ((stepped variadic 11).All fun v => ∀ a, v = .closure a →
      ∃ c, (stepped variadic 11).store.closures[a]? = some c ∧ c.Binds) ∧
    callee? (stepped variadic 11).task = some (0, 3) :=
  ⟨closures_of_reached (reached_steps trivial ((placeable_callable _).2 _) (fun _ => trivial) _),
    by decide +kernel⟩

end Machine

end HygienicScheme
