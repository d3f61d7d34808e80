import HygienicScheme.Proofs.Discipline.Blind
import HygienicScheme.Proofs.Evaluation.Frames
import HygienicScheme.Proofs.Transformers.Rebinding

/-!
# One namespace of transformers

The expander looks for a transformer before it looks for a core form. That no transformer can take
the place of a core form rests on an invariant of whole sessions: all transformers are kept in the
root frame, all environments end there, and no transformer has the name of a core form.
-/
namespace HygienicScheme

theorem SpecialForm.ofName?_of_core {name : String} (h : isCoreKeyword name = true) :
    ∃ form, ofName? name = some form := by
  simp only [isCoreKeyword, coreKeywords, List.contains_eq_mem, List.mem_cons, List.not_mem_nil,
    or_false, decide_eq_true_eq] at h
  rcases h with rfl | rfl | rfl | rfl | rfl | rfl | rfl | rfl | rfl | rfl | rfl | rfl | rfl | rfl
  all_goals exact ⟨_, rfl⟩

namespace Store

structure OneNamespace (root : Address) (s : Store) : Prop where
  elsewhere : ∀ f, f ≠ root → (s.frameAt f).transformers = []
  keys : ∀ p ∈ (s.frameAt root).transformers, isCoreKeyword p.1 = false

structure Rooted (root : Address) (s : Store) : Prop extends s.OneNamespace root where
  closures : ∀ a, (s.closureAt a).env.root.frame = root

variable {root : Address} {s t : Store} {env : Environment}

namespace OneNamespace

theorem of_same (h : s.OneNamespace root) (hst : s.SameTransformers t) : t.OneNamespace root where
  elsewhere f hf := (hst f).trans (h.elsewhere f hf)
  keys := by
    rw [hst root]
    exact h.keys

theorem install (h : s.OneNamespace root) (henv : env.root.frame = root) {m : Transformer}
    (hm : isCoreKeyword m.name = false) : (s.install env m).OneNamespace root where
  elsewhere f hf := by
    rw [Store.install, frameAt_modifyFrame, if_neg (by simp [henv, hf.symm])]
    exact h.elsewhere f hf
  keys := by
    rw [Store.install, frameAt_modifyFrame]
    split
    · exact List.forall_mem_cons.mpr ⟨hm, h.keys⟩
    · exact h.keys

theorem accepted (h : s.OneNamespace root) (henv : env.root.frame = root) {x : Symbol}
    {spec : Value} {m : Transformer} (haccepts : Expansion.Accepts s x spec m) :
    (s.install env m).OneNamespace root := by
  refine h.install henv ?_
  rw [(SyntaxRules.define_ok haccepts.compiled).1]
  exact haccepts.allowed

theorem rebinds (h : s.OneNamespace root) (henv : env.root.frame = root) (hst : s.Rebinds env t) :
    t.OneNamespace root := by
  induction hst with
  | refl => exact h
  | tail _ hstep ih =>
    cases hstep with
    | keep hsame => exact ih.of_same hsame
    | install _ haccepts => exact ih.accepted henv haccepts

theorem transformer?_eq (h : s.OneNamespace root) (name : String) {chain : List Address}
    (hchain : chain.getLast? = some root) :
    s.transformer? name chain = (s.frameAt root).transformers.lookup name := by
  induction chain with
  | nil => cases hchain
  | cons f outer ih =>
    rw [transformer?]
    cases outer with
    | nil =>
      obtain rfl : f = root := by simpa using hchain
      cases hlookup : (s.frameAt f).transformers.lookup name <;> rfl
    | cons g outer =>
      have hmore := ih (by simpa using hchain)
      by_cases hf : f = root
      · subst hf
        rw [hmore]
        cases hlookup : (s.frameAt f).transformers.lookup name <;> rfl
      · rw [h.elsewhere f hf]
        exact hmore

theorem lookup_core (h : s.OneNamespace root) {name : String} (hname : isCoreKeyword name = true) :
    (s.frameAt root).transformers.lookup name = none := by
  by_contra hlookup
  obtain ⟨m, hm⟩ := Option.ne_none_iff_exists'.mp hlookup
  have hkey := h.keys _ (SyntaxRules.mem_of_lookup hm)
  cases hname.symm.trans hkey

theorem headOf_core (h : s.OneNamespace root) (henv : env.chain.getLast? = some root) {x : Symbol}
    (hcore : isCoreKeyword x.name = true) (huser : x.isStamped = false) (items : List Value) :
    Expansion.headOf env (.symbol x :: items) s = Expansion.coreHead x.name (items.length + 1) := by
  rw [Expansion.headOf, h.transformer?_eq x.name henv, h.lookup_core hcore]
  simp [huser]

end OneNamespace

theorem Rooted.of_same (h : s.Rooted root) (hst : s.SameTransformers t)
    (hclosures : t.closures = s.closures) : t.Rooted root where
  toOneNamespace := h.toOneNamespace.of_same hst
  closures a := by
    rw [closureAt, hclosures]
    exact h.closures a

theorem Rooted.of_eq (h : s.Rooted root) (hframes : t.frames = s.frames)
    (hclosures : t.closures = s.closures) : t.Rooted root :=
  h.of_same (.of_frames_eq hframes) hclosures

theorem Rooted.push_closure (h : s.Rooted root) {c : Closure} (hc : c.env.root.frame = root) :
    ({ s with closures := s.closures.push c } : Store).Rooted root where
  toOneNamespace := h.toOneNamespace.of_same (.of_frames_eq rfl)
  closures a := by
    have hold := h.closures a
    simp only [closureAt, Array.getD_eq_getD_getElem?, Array.getElem?_push] at hold ⊢
    split
    · exact hc
    · exact hold

/-- No closure was made in the empty store, and the one that is read there sees the first frame. -/
theorem rooted_empty : empty.Rooted 0 where
  elsewhere _ _ := rfl
  keys := by simp [frameAt, empty]
  closures _ := rfl

end Store

theorem Environment.getLast?_chain (env : Environment) :
    env.chain.getLast? = some env.root.frame := List.getLast?_eq_some_getLast _

theorem Environment.root_child (env : Environment) (f : Address) :
    (⟨f, env.chain⟩ : Environment).root = env.root := by
  simp [root, chain]

def rooting (root : Address) : FormlessDiscipline where
  Holds := Store.Rooted root
  Data _ _ := True
  Leads s t := s.frames.size ≤ t.frames.size
  Scope env := env.root.frame = root
  refl _ := Nat.le_refl _
  trans := Nat.le_trans
  data_leads _ _ := trivial
  constant _ _ _ _ := trivial
  name _ := trivial
  slot _ _ _ := trivial
  cons hs _ _ := ⟨⟨hs.of_eq rfl rfl, Nat.le_refl _⟩, trivial⟩
  vector hs _ := ⟨⟨hs.of_eq rfl rfl, Nat.le_refl _⟩, trivial⟩
  bound _ _ _ := trivial
  promised _ _ := trivial
  promise hs _ := ⟨⟨hs.of_eq rfl rfl, Nat.le_refl _⟩, trivial⟩
  child env hs henv _ := by
    refine ⟨⟨hs.of_same (Store.sameTransformers_push _ _) rfl, by simp⟩, ?_⟩
    rw [env.root_child]
    exact henv
  setPair hs _ _ _ := ⟨hs.of_eq rfl rfl, Nat.le_refl _⟩
  setVector hs _ _ := ⟨hs.of_eq rfl rfl, Nat.le_refl _⟩
  bind f x _ hs _ := ⟨hs.of_same (Store.sameTransformers_bind _ f x _) rfl,
    by simp [Store.bind, Store.modifyFrame]⟩
  string _ hs := ⟨hs.of_eq rfl rfl, Nat.le_refl _⟩
  emit _ hs := ⟨hs.of_eq rfl rfl, Nat.le_refl _⟩
  exit hs := ⟨⟨hs.of_eq rfl rfl, Nat.le_refl _⟩, trivial⟩
  symbol _ _ := trivial
  install _ henv hs _ haccepts _ := ⟨⟨hs.toOneNamespace.accepted henv haccepts, hs.closures⟩,
    by simp [Store.install, Store.modifyFrame]⟩
  constants _ _ _ _ := trivial
  use hs := ⟨⟨hs.of_eq rfl rfl, Nat.le_refl _⟩, trivial⟩
  phase hs := ⟨hs.of_eq rfl rfl, Nat.le_refl _⟩
  body _ _ _ _ _ := trivial
  scope a hs := hs.closures a
  closure hs henv _ _ := ⟨⟨hs.push_closure henv, Nat.le_refl _⟩, trivial⟩

def rooted (root : Address) : Regimen :=
  (rooting root).regimen (fun _ _ => True) fun _ hs _ _ _ => ⟨hs.of_eq rfl rfl, Nat.le_refl _⟩

theorem rooted_admits (root : Address) (T : Terms) : (rooted root).Admits T where
  datum _ hs := EvaluationDiscipline.holds_place (fun _ _ _ => trivial) hs
  value _ := ⟨trivial, trivial⟩
  step _ := ⟨fun _ => trivial, fun _ => trivial, fun _ => trivial⟩

namespace Machine

variable {c : Context} {T : Terms} {m m' : Machine} {env : Environment}

inductive Mentions (c : Context) (m : Machine) : Environment → Prop
  | global : Mentions c m c.global
  | task {env : Environment} (h : m.task.env? = some env) : Mentions c m env
  | waiting {waiting : Pending} {env : Environment} (hw : waiting ∈ m.stack)
      (h : waiting.env? = some env) : Mentions c m env
  | closure (a : Address) : Mentions c m (m.store.closureAt a).env

theorem Kept.root_eq {root : Address} (hm : m.Kept (rooted root))
    (hglobal : c.global.root.frame = root) (h : m.Mentions c env) : env.root.frame = root := by
  cases h with
  | global => exact hglobal
  | task h =>
    have hscope := hm.task.scope
    rw [h] at hscope
    exact hscope
  | waiting hw h => exact (hm.stack _ hw).scope.scope h
  | closure a => exact hm.store.closures a

theorem transformers_next (h : Next c T m m') : m.store.SameTransformers m'.store ∨
    ∃ form, m'.store = Action.after (Expansion.expandToplevel c.global form m.store) := by
  cases h with
  | step _ =>
    cases (step_effect c m).1 with
    | quiet h => exact .inl (.of_frames_eq h.frames_eq)
    | @call a args bindings s _ hs h =>
      refine .inl (.trans (.of_frames_eq hs.frames_eq) ?_)
      exact (s.sameTransformers_push bindings).trans (.of_frames_eq h.frames_eq)
    | assign _ h =>
      rw [h]
      exact .inl (Store.sameTransformers_bind _ _ _ _)
    | define hdefines =>
      obtain ⟨k, d, hstep⟩ := hdefines.step c
      refine .inl (.trans (.of_frames_eq hdefines.quiet.frames_eq) ?_)
      rw [hstep, perform_store, bindDefinition_outcome]
      split
      · exact .of_frames_eq rfl
      · exact Store.sameTransformers_bind _ _ _ _
    | expand _ h => exact .inr ⟨_, h⟩
  | @place d _ => exact .inl (.of_frames_eq (d.quiet_place m.store).frames_eq)
  | @form v _ _ _ h => exact .inr ⟨v, by rw [h]; rfl⟩
  | @refused v _ _ _ h => exact .inr ⟨v, by rw [h]; rfl⟩
  | raw _ => exact .inl (.of_frames_eq rfl)
  | define name _ =>
    refine .inl ?_
    dsimp only [idle]
    rw [define_outcome]
    split
    · exact .of_frames_eq rfl
    · exact Store.sameTransformers_bind _ _ _ _
  | takeOutput => exact .inl (.of_frames_eq rfl)

theorem step_core {a : Address} {x : Symbol} (htask : m.task = .tail (.pair a) env)
    (hstack : m.stack.head? ≠ some .call) (hcar : (m.store.pairAt a).car = .symbol x)
    (hcore : isCoreKeyword x.name = true) (huser : x.isStamped = false) :
    ∃ form, SpecialForm.ofName? x.name = some form ∧ m.step c =
      perform (special c form (m.store.pairAt a).cdr env m.stack) m.stack m.depth m.store := by
  obtain ⟨task, k, d, s⟩ := m
  obtain rfl : task = .tail (.pair a) env := htask
  obtain ⟨form, hform⟩ := SpecialForm.ofName?_of_core hcore
  have hspecial : specialForm? (s.pairAt a).car = some form := by
    simp [show (s.pairAt a).car = .symbol x from hcar, specialForm?, SpecialForm.ofSymbol?, huser,
      hform]
  exact ⟨form, hform, (step_tail hstack).trans (perform_congr (evaluate_special hspecial))⟩

theorem definition_installed {root : Address} {s : Store} (h : s.OneNamespace root)
    (hroot : root < s.frames.size) (henv : env.root.frame = root) {a : Address} {y x : Symbol}
    {spec : Value} {t : Transformer}
    (hform : (Expansion.started s).Chain (.pair a) [.symbol y, .symbol x, spec] .null)
    (hkeyword : y.name = "define-syntax") (huser : y.isStamped = false)
    (haccepts : Expansion.Accepts (Expansion.started s) x spec t) :
    (x.name, t) ∈
      ((Action.after (Expansion.expandToplevel env (.pair a) s)).frameAt root).transformers := by
  have hstarted : (Expansion.started s).OneNamespace root := h.of_same (.of_frames_eq rfl)
  have hlast : env.chain.getLast? = some root := henv ▸ env.getLast?_chain
  have hcore : isCoreKeyword y.name = true := by
    rw [hkeyword]
    decide
  have hhead := hstarted.headOf_core hlast hcore huser [.symbol x, spec]
  rw [hkeyword] at hhead
  refine (Expansion.expandToplevel_definition hform hhead haccepts root).subset ?_
  rw [Store.install, Store.frameAt_modifyFrame, if_pos ⟨henv, hroot⟩,
    ← (SyntaxRules.define_ok haccepts.compiled).1]
  exact List.mem_cons_self

/-- What transformers may rely on in a state of a session, whatever comes next. -/
structure KeepsTransformers (c : Context) (T : Terms) (m : Machine) : Prop where
  /-- Only the root frame has transformers. -/
  elsewhere : ∀ f, f ≠ c.global.root.frame → (m.store.frameAt f).transformers = []
  /-- Every environment ends in the root frame, and from each frame on its chain a name has the
  transformer that it has there. -/
  ends : ∀ env, m.Mentions c env → env.root = c.global.root
  shared : ∀ env, m.Mentions c env → ∀ outer, outer ≠ [] → outer <:+ env.chain → ∀ name,
    m.store.transformer? name outer =
      (m.store.frameAt c.global.root.frame).transformers.lookup name
  /-- No transformer is named like a core form. -/
  keys : ∀ p ∈ (m.store.frameAt c.global.root.frame).transformers, isCoreKeyword p.1 = false
  /-- The tables change only in an expansion, and in it only by definitions that are accepted. -/
  changes : ∀ m', Next c T m m' → m.store.SameTransformers m'.store ∨
    ∃ form, m'.store = Action.after (Expansion.expandToplevel c.global form m.store) ∧
      m.store.Rebinds c.global m'.store
  /-- So it is in every part of an expansion. -/
  parts : ∀ (s : Store) room,
    (∀ form, s.Rebinds c.global (Action.after (Expansion.expand c.global room form s))) ∧
    ∀ fuel level v,
      s.Rebinds c.global (Action.after (Expansion.expandTemplate c.global room fuel level v s))
  /-- A definition that is accepted is installed in the root frame. -/
  installed : ∀ (a : Address) (y x : Symbol) spec t,
    (Expansion.started m.store).Chain (.pair a) [.symbol y, .symbol x, spec] .null →
    y.name = "define-syntax" → y.isStamped = false →
    Expansion.Accepts (Expansion.started m.store) x spec t →
    (x.name, t) ∈ ((Action.after (Expansion.expandToplevel c.global (.pair a) m.store)).frameAt
      c.global.root.frame).transformers
  /-- One that is rejected does nothing. -/
  rejected : ∀ operands tail s t e,
    Expansion.defineSyntax c.global operands tail s = .error e t → t = s
  /-- Neither does a binding that is rejected, but those before it stay. -/
  rejectedBinding : ∀ keyword bindings s t e,
    Expansion.installAll c.global keyword bindings s = .error e t →
    ∃ before v after, bindings = before ++ v :: after ∧
      Expansion.installAll c.global keyword before s = .ok () t ∧
      Expansion.installBinding c.global keyword v t = .error e t
  /-- At any point of an expansion a core form of the user's is expanded as such. -/
  expander : ∀ s x items, m.store.Rebinds c.global s → isCoreKeyword x.name = true →
    x.isStamped = false → Expansion.headOf c.global (.symbol x :: items) s =
      Expansion.coreHead x.name (items.length + 1)
  /-- It is evaluated as such, too, whatever its name is bound to. -/
  evaluator : ∀ a x env, m.task = .tail (.pair a) env → m.stack.head? ≠ some .call →
    (m.store.pairAt a).car = .symbol x → isCoreKeyword x.name = true → x.isStamped = false →
    ∃ form, SpecialForm.ofName? x.name = some form ∧ m.step c =
      perform (special c form (m.store.pairAt a).cdr env m.stack) m.stack m.depth m.store

theorem transformer?_suffix {root : Address} {s : Store} (h : s.OneNamespace root)
    (henv : env.root.frame = root) {outer : List Address} (houter : outer ≠ [])
    (hsuffix : outer <:+ env.chain) (name : String) :
    s.transformer? name outer = (s.frameAt root).transformers.lookup name := by
  obtain ⟨inner, hinner⟩ := hsuffix
  have hlast := env.getLast?_chain
  rw [← hinner, List.getLast?_append_of_ne_nil inner houter, henv] at hlast
  exact h.transformer?_eq name hlast

theorem rooted_of_reached {config : Config} {outputName : String}
    (h : Reached config outputName T m) :
    m.Kept (rooted 0) ∧ 0 < m.store.frames.size := by
  obtain ⟨hstore, hglobal⟩ :=
    Regimen.holds_bare (R := rooted 0) config outputName Store.rooted_empty rfl
  obtain ⟨hkept, hframes⟩ :=
    Regimen.session (rooted_admits 0 T) hglobal (Regimen.kept_idle hstore) h
  exact ⟨hkept, Nat.lt_of_lt_of_le Nat.two_pos hframes⟩

/-- In every state that a session comes to, the transformers are in one namespace. -/
theorem transformers_of_reached {config : Config} {outputName : String}
    (h : Reached config outputName T m) :
    m.KeepsTransformers (Interpreter.bare config outputName).context T := by
  obtain ⟨hkept, hroot⟩ := rooted_of_reached h
  have hone : m.store.OneNamespace 0 := hkept.store.toOneNamespace
  exact
    { elsewhere := hone.elsewhere
      ends := fun env henv => congrArg (Environment.mk · []) (hkept.root_eq rfl henv)
      shared := fun env henv _ houter hsuffix name =>
        transformer?_suffix hone (hkept.root_eq rfl henv) houter hsuffix name
      keys := hone.keys
      changes := fun m' hnext => by
        rcases transformers_next hnext with hsame | ⟨form, hform⟩
        · exact .inl hsame
        · refine .inr ⟨form, hform, ?_⟩
          rw [hform]
          exact Expansion.rebinds_expandToplevel _ _ form
      parts := fun s room => ⟨Expansion.rebinds_expand _ s room,
        Expansion.rebinds_expandTemplate _ s room⟩
      installed := fun _ _ _ _ _ hform hkeyword huser haccepts =>
        definition_installed hone hroot rfl hform hkeyword huser haccepts
      rejected := fun _ _ _ _ _ => Expansion.defineSyntax_rejected
      rejectedBinding := fun _ _ _ _ _ => Expansion.installAll_rejected
      expander := fun s x items hst hcore huser =>
        (hone.rebinds rfl hst).headOf_core rfl hcore huser items
      evaluator := fun _ _ _ => step_core }

def expanded (d : Datum) : Machine :=
  let i := Interpreter.bare {} "out"
  idle { Action.after (Expansion.expandToplevel i.context.global (d.place i.store).1
    (d.place i.store).2) with output := "" }

theorem reached_expanded (d : Datum) : Reached {} "out" anyTerms (expanded d) := by
  have hplaced : Reached {} "out" anyTerms (placed d) := reached_placed trivial
  unfold expanded
  dsimp only
  cases hexpand : Expansion.expandToplevel (Interpreter.bare {} "out").context.global
      (d.place (Interpreter.bare {} "out").store).1
      (d.place (Interpreter.bare {} "out").store).2 with
  | ok expanded s => exact (hplaced.tail (.form trivial hexpand)).tail .takeOutput
  | error e s => exact (hplaced.tail (.refused trivial hexpand)).tail .takeOutput

def isDefinition (s : Store) (name : String) (v : Value) : Bool :=
  match v, s.splitList? v with
  | .pair _, some ([.symbol y, .symbol x, spec], .null) =>
    y == .user "define-syntax" && x == .user name && !isCoreKeyword name &&
      (SyntaxRules.define s name spec).isOk
  | _, _ => false

theorem of_isDefinition {s : Store} {name : String} {v : Value} (h : isDefinition s name v = true) :
    ∃ a spec t, v = .pair a ∧
      s.Chain (.pair a) [.symbol (.user "define-syntax"), .symbol (.user name), spec] .null ∧
      Expansion.Accepts s (.user name) spec t := by
  unfold isDefinition at h
  split at h
  · rename_i a y x spec hsplit
    simp only [Bool.and_eq_true, beq_iff_eq, Bool.not_eq_true'] at h
    obtain ⟨⟨⟨rfl, rfl⟩, hallowed⟩, hok⟩ := h
    cases hdefine : SyntaxRules.define s name spec with
    | error e =>
      rw [hdefine] at hok
      cases hok
    | ok t => exact ⟨a, spec, t, rfl, Store.splitList?_eq_some.mp hsplit, hallowed, hdefine⟩
  · cases h

theorem installed_expanded {d : Datum} {name : String}
    (h : isDefinition (Expansion.started (placed d).store) name
      (d.place (Interpreter.bare {} "out").store).1 = true) :
    ∃ t, (name, t) ∈ ((expanded d).store.frameAt 0).transformers := by
  have hplaced : Reached {} "out" anyTerms (placed d) := reached_placed trivial
  obtain ⟨hkept, hroot⟩ := rooted_of_reached hplaced
  obtain ⟨a, spec, t, hv, hform, haccepts⟩ := of_isDefinition h
  have hmem : (name, t) ∈ ((Action.after (Expansion.expandToplevel
      (Interpreter.bare {} "out").context.global (.pair a)
      (placed d).store)).frameAt 0).transformers :=
    definition_installed hkept.store.toOneNamespace hroot rfl hform rfl rfl haccepts
  rw [← hv] at hmem
  exact ⟨t, hmem⟩

def definition : Datum :=
  .list [.name "define-syntax", .name "first", .list [.name "syntax-rules", .list [],
    .list [.list [.name "_", .name "a", .name "b"], .name "a"]]]

theorem transformers_of_reached_definition :
    (expanded definition).KeepsTransformers (Interpreter.bare {} "out").context anyTerms ∧
      ∃ t, ("first", t) ∈ ((expanded definition).store.frameAt 0).transformers :=
  ⟨transformers_of_reached (reached_expanded _), installed_expanded (by decide +kernel)⟩

end Machine

end HygienicScheme
