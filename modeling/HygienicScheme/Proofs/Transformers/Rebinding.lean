import HygienicScheme.Proofs.Expansion.Effects

/-!
# What rebinds a transformer

The tables of transformers change in one way only: a name that is not that of a core form gets a
transformer, compiled from what stands beside the name in a `define-syntax` form or in a binding of
a `let-syntax` or `letrec-syntax` form. However an expansion goes, and wherever it fails, all that
it has done to the tables is a row of such steps.
-/
namespace HygienicScheme

namespace Store

def SameTransformers (s t : Store) : Prop :=
  ∀ f, (t.frameAt f).transformers = (s.frameAt f).transformers

variable {s t u : Store}

theorem SameTransformers.of_frames_eq (h : t.frames = s.frames) : s.SameTransformers t := by
  intro f
  rw [frameAt, frameAt, h]

theorem SameTransformers.trans (h : s.SameTransformers t) (k : t.SameTransformers u) :
    s.SameTransformers u := fun f => (k f).trans (h f)

theorem sameTransformers_bind (s : Store) (f : Address) (x : Symbol) (v : Value) :
    s.SameTransformers (s.bind f x v) := by
  intro g
  rw [bind, frameAt_modifyFrame]
  split <;> rfl

theorem sameTransformers_push (s : Store) (bindings : List (Symbol × Value)) :
    s.SameTransformers { s with frames := s.frames.push ⟨bindings, []⟩ } := by
  intro f
  simp only [frameAt, Array.getD_eq_getD_getElem?, Array.getElem?_push]
  split
  · rename_i hf
    simp [hf]
  · rfl

inductive Rebind (env : Environment) (s : Store) : Store → Prop
  | keep {t : Store} (h : s.SameTransformers t) : Rebind env s t
  | install {x : Symbol} {spec : Value} {m : Transformer} (hnames : Expansion.Names s x spec)
      (haccepts : Expansion.Accepts s x spec m) : Rebind env s (s.install env m)

def Rebinds (env : Environment) : Store → Store → Prop := Relation.ReflTransGen (Rebind env)

theorem Rebinds.of_frames_eq {env : Environment} (h : t.frames = s.frames) : s.Rebinds env t :=
  .single (.keep (.of_frames_eq h))

end Store

def rebinding (env : Environment) : ExpansionDiscipline where
  Holds _ := True
  Data _ _ := True
  Leads := Store.Rebinds env
  Scope e := e = env
  refl _ := .refl
  trans := .trans
  data_leads _ _ := trivial
  constant _ _ _ _ := trivial
  name _ := trivial
  slot _ _ _ := trivial
  cons _ _ _ := ⟨⟨trivial, .of_frames_eq rfl⟩, trivial⟩
  vector _ _ := ⟨⟨trivial, .of_frames_eq rfl⟩, trivial⟩
  Defined := Expansion.Names
  symbol _ _ := trivial
  install e he _ hnames haccepts _ := by
    obtain rfl : e = env := he
    exact ⟨trivial, .single (.install hnames haccepts)⟩
  constants _ _ _ _ := trivial
  defined := id
  use _ := ⟨⟨trivial, .of_frames_eq rfl⟩, trivial⟩
  phase _ := ⟨trivial, .of_frames_eq rfl⟩

namespace Expansion

variable (env : Environment) (s : Store)

theorem rebinds_expand (room : Nat) (form : Value) :
    s.Rebinds env (Action.after (expand env room form s)) :=
  ((ExpansionDiscipline.expands (D := rebinding env) rfl room).1 trivial trivial).1.2

theorem rebinds_expandTemplate (room fuel level : Nat) (v : Value) :
    s.Rebinds env (Action.after (expandTemplate env room fuel level v s)) :=
  ((ExpansionDiscipline.expands (D := rebinding env) rfl room).2 fuel level trivial trivial).1.2

theorem rebinds_expandToplevel (form : Value) :
    s.Rebinds env (Action.after (expandToplevel env form s)) :=
  (ExpansionDiscipline.keeps_expandToplevel (D := rebinding env) rfl trivial trivial).1.2

variable {env s} {t u : Store} {e : Error}

theorem defineSyntax_rejected {operands : List Value} {tail : Value}
    (h : defineSyntax env operands tail s = .error e t) : t = s := by
  unfold defineSyntax at h
  split at h
  · rename_i x spec
    split at h
    · cases h
      rfl
    · rw [Action.inspect_bind] at h
      cases hdefine : SyntaxRules.define s x.name spec with
      | error e' =>
        rw [hdefine, Action.error_bind] at h
        cases h
        rfl
      | ok m =>
        rw [hdefine, Action.ok_bind] at h
        cases h
  · cases h
    rfl
  · cases h
    rfl

theorem expandToplevel_definition {a : Address} {y x : Symbol} {spec : Value} {m : Transformer}
    (hform : (started s).Chain (.pair a) [.symbol y, .symbol x, spec] .null)
    (hhead : headOf env [.symbol y, .symbol x, spec] (started s) = .defineSyntax)
    (haccepts : Accepts (started s) x spec m) (f : Address) :
    (((started s).install env m).frameAt f).transformers <:+
      ((Action.after (expandToplevel env (.pair a) s)).frameAt f).transformers := by
  have hdefine : defineSyntax env [.symbol x, spec] .null (started s) =
      .ok () ((started s).install env m) := defineSyntax_eq haccepts.allowed haccepts.compiled
  have hexpand : expand env (maxDepth + 1) (.pair a) (started s) =
      .ok (.pair a) ((started s).install env m) := by
    rw [expand_list (Store.splitList?_eq_some.mpr hform), hhead]
    exact Action.bind_ok hdefine _
  rw [expandToplevel_eq, Action.bind_ok hexpand]
  exact (Renaming.expanding_renameIntroduced (.pair a) _).transformers_suffix f

def installBinding (env : Environment) (keyword : String) (v : Value) : Action Unit := do
  match ← Action.properList? v with
  | some parts => defineSyntax env parts .null
  | none => Action.malformed keyword (.binding (← Action.writeText v))

theorem installBinding_eq (env : Environment) (keyword : String) (v : Value) (s : Store) :
    installBinding env keyword v s = match s.properList? v with
      | some parts => defineSyntax env parts .null s
      | none => .error (.malformed keyword (.binding (s.writeText v))) s := by
  unfold installBinding
  rw [Action.properList?, Action.inspect_bind]
  cases s.properList? v <;> rfl

theorem installAll_cons (env : Environment) (keyword : String) (v : Value) (more : List Value) :
    installAll env keyword (v :: more) =
      (installBinding env keyword v >>= fun _ => installAll env keyword more) := by
  funext s
  have hbinding := installBinding_eq env keyword v s
  conv_lhs => unfold installAll
  rw [Action.properList?, Action.inspect_bind]
  cases hparts : s.properList? v with
  | none =>
    rw [hparts] at hbinding
    exact (Action.bind_error hbinding _).symm
  | some parts =>
    rw [hparts] at hbinding
    exact Action.bind_congr hbinding.symm fun _ _ _ => rfl

theorem installBinding_rejected {keyword : String} {v : Value}
    (h : installBinding env keyword v s = .error e t) : t = s := by
  rw [installBinding_eq] at h
  split at h
  · exact defineSyntax_rejected h
  · cases h
    rfl

/-- Of the bindings of a `let-syntax` form those before a rejected one stay, and the rejected one
does nothing. -/
theorem installAll_rejected {keyword : String} {bindings : List Value}
    (h : installAll env keyword bindings s = .error e t) :
    ∃ before v after, bindings = before ++ v :: after ∧
      installAll env keyword before s = .ok () t ∧ installBinding env keyword v t = .error e t := by
  induction bindings generalizing s with
  | nil => cases h
  | cons v more ih =>
    rw [installAll_cons] at h
    cases hfirst : installBinding env keyword v s with
    | error e' u =>
      rw [Action.bind_error hfirst] at h
      cases h
      obtain rfl : t = s := installBinding_rejected hfirst
      exact ⟨[], v, more, rfl, rfl, hfirst⟩
    | ok _ u =>
      rw [Action.bind_ok hfirst] at h
      obtain ⟨before, w, after, rfl, hbefore, hrejected⟩ := ih h
      refine ⟨v :: before, w, after, rfl, ?_, hrejected⟩
      rw [installAll_cons, Action.bind_ok hfirst, hbefore]

end Expansion

end HygienicScheme
