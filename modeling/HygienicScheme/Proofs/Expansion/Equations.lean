import HygienicScheme.Expansion
import HygienicScheme.Proofs.Discipline.Basic
import Mathlib.Tactic.Conv
import Mathlib.Tactic.SplitIfs

/-!
# Expansion case by case

The passes over a form, each read as one equation for every kind of value it meets, from a store in
which it is known what the value is.
-/
namespace HygienicScheme

variable {s : Store} {v tail : Value} {items : List Value} {m : Nat}

namespace Renaming

/-- How the pass that settles stamps reads a list. -/
inductive Form
  | quote (data : List Value)
  | quasiquote (t : Value)
  | definition
  | other

def Form.of (items : List Value) (tail : Value) : Form :=
  match Head.ofItems items, items, tail with
  | .quote, _ :: data, _ => .quote data
  | .quasiquote, [_, t], .null => .quasiquote t
  | .defineSyntax, _, _ => .definition
  | _, _, _ => .other

theorem Form.eq_quote {data : List Value} : Form.of items tail = .quote data ↔
    Head.ofItems items = .quote ∧ ∃ head, items = head :: data := by
  unfold Form.of
  constructor
  · intro h
    split at h <;> cases h
    exact ⟨by assumption, _, rfl⟩
  · rintro ⟨hhead, head, rfl⟩
    rw [hhead]

theorem Form.eq_definition :
    Form.of items tail = .definition ↔ Head.ofItems items = .defineSyntax := by
  unfold Form.of
  constructor
  · intro h
    split at h <;> first | assumption | cases h
  · intro hhead
    rw [hhead]

theorem Form.eq_quasiquote : Form.of items tail = .quasiquote v ↔
    Head.ofItems items = .quasiquote ∧ tail = .null ∧ ∃ head, items = [head, v] := by
  unfold Form.of
  constructor
  · intro h
    split at h <;> cases h
    exact ⟨by assumption, rfl, _, rfl⟩
  · rintro ⟨hhead, rfl, head, rfl⟩
    rw [hhead]

theorem Form.of_quote {data : List Value} (h : Form.of items tail = .quote data) :
    ∃ head, items = head :: data := (Form.eq_quote.mp h).2

theorem Form.of_quasiquote (h : Form.of items tail = .quasiquote v) :
    ∃ head, items = [head, v] := (Form.eq_quasiquote.mp h).2.2

theorem code_pair {a : Address} {bound : List Symbol}
    (hs : s.splitList? (.pair a) = some (items, tail)) :
    code bound (m + 1) (.pair a) s =
      (match Form.of items tail with
        | .quote data => do
          let data ← rebuild (strip m) data tail
          Build.cons (.name "quote") data
        | .quasiquote t => do
          let t ← template bound m 1 t
          Build.list [.name "quasiquote", t]
        | .definition => return .pair a
        | .other => rebuild (code bound m) items tail : Action Value) s := by
  rw [code, Action.get_bind, hs]
  unfold Form.of
  dsimp only
  cases Head.ofItems items with
  | quote => cases items <;> rfl
  | quasiquote => rcases items with _ | ⟨_, _ | ⟨_, _ | _⟩⟩ <;> cases tail <;> rfl
  | _ => rfl

section Template

variable {bound : List Symbol} {level : Nat}

theorem template_form {keyword : QuasiKeyword} {operand : Value}
    (h : s.quasiForm? v = some (keyword, operand)) :
    template bound (m + 1) level v s =
      ((if keyword = .quasiquote then template bound m (level + 1) operand
        else if level = 1 then code bound m operand
        else template bound m (level - 1) operand) >>= fun operand =>
          liftM (Build.list [.name keyword.name, operand]) : Action Value) s := by
  conv_lhs => unfold template
  rw [Action.get_bind, h]
  dsimp only
  split_ifs <;> rfl

theorem template_pair {a : Address} (h : s.quasiForm? (.pair a) = none) :
    template bound (m + 1) level (.pair a) s =
      (do
        let car ← template bound m level (s.pairAt a).car
        let cdr ← template bound m level (s.pairAt a).cdr
        Build.cons car cdr : Action Value) s := by
  conv_lhs => unfold template
  rw [Action.get_bind, h]
  rfl

theorem template_vector {a : Address} :
    template bound (m + 1) level (.vector a) s =
      ((s.vectorAt a).toList.mapM (template bound m level) >>= fun items =>
        liftM (Build.vector items.toArray) : Action Value) s := by
  conv_lhs => unfold template
  rfl

theorem template_leaf (hp : ∀ a, v ≠ .pair a) (hv : ∀ a, v ≠ .vector a) :
    template bound (m + 1) level v s = strip m v s := by
  conv_lhs => unfold template
  cases v with
  | pair a => exact absurd rfl (hp a)
  | vector a => exact absurd rfl (hv a)
  | _ => rfl

end Template

end Renaming

theorem Store.frameAt_modifyFrame (s : Store) (f g : Address) (change : Frame → Frame) :
    (s.modifyFrame f change).frameAt g =
      if f = g ∧ g < s.frames.size then change (s.frameAt g) else s.frameAt g :=
  getD_modify s.frames change f g ⟨[], []⟩

theorem Store.transformer?_congr {s t : Store} (h : t.frames = s.frames) (name : String)
    (chain : List Address) : t.transformer? name chain = s.transformer? name chain := by
  induction chain with
  | nil => rfl
  | cons f outer ih => rw [transformer?, transformer?, frameAt, frameAt, h, ih]

theorem Store.transformer?_eq_none {name : String} {chain : List Address} :
    s.transformer? name chain = none ↔
      ∀ f ∈ chain, (s.frameAt f).transformers.lookup name = none := by
  induction chain with
  | nil => simp [transformer?]
  | cons f outer ih =>
    rw [transformer?, List.forall_mem_cons]
    cases (s.frameAt f).transformers.lookup name with
    | none => simpa using ih
    | some m => simp

theorem Store.transformer?_mem {s : Store} {name : String} {chain : List Address} {m : Transformer}
    (h : s.transformer? name chain = some m) :
    ∃ f ∈ chain, (name, m) ∈ (s.frameAt f).transformers := by
  induction chain with
  | nil => cases h
  | cons f outer ih =>
    unfold transformer? at h
    split at h
    · rename_i m' hm'
      cases h
      exact ⟨f, List.mem_cons_self, SyntaxRules.mem_of_lookup hm'⟩
    · obtain ⟨g, hg, hm⟩ := ih h
      exact ⟨g, List.mem_cons_of_mem _ hg, hm⟩

namespace Expansion

variable {env : Environment}

def started (s : Store) : Store := { s with phase := s.phase + 1, uses := 0 }

theorem expandToplevel_eq (env : Environment) (v : Value) (s : Store) : expandToplevel env v s =
    (expand env (maxDepth + 1) v >>= Renaming.renameIntroduced) (started s) := rfl

theorem defineSyntax_eq {x : Symbol} {spec : Value} {t : Transformer}
    (hx : isCoreKeyword x.name = false) (ht : SyntaxRules.define s x.name spec = .ok t) :
    defineSyntax env [.symbol x, spec] .null s = .ok () (s.install env t) := by
  unfold defineSyntax
  dsimp only
  rw [if_neg (by simp [hx]), Action.inspect_bind, ht]
  rfl

theorem transcribe_eq (env : Environment) (t : Transformer) (form : Value) (s : Store) :
    transcribe env t form s =
      (match firstMatch? s form t.rules with
        | some (r, bs) => do
          let (phase, index) ← nextUse
          MacroUse.transcribe ⟨t, env, phase, index⟩ r.template bs
        | none => throw (.noMatchingRule t.name (s.writeText form)) : Action Value) s := by
  unfold transcribe transcribeWith
  refine (Action.inspect_bind _ _ s).trans ?_
  cases firstMatch? s form t.rules with
  | none => rfl
  | some found => rfl

theorem expand_leaf (env : Environment) (room : Nat) (hv : ∀ a, v ≠ .pair a) :
    expand env room v = pure v := by
  unfold expand expandWith
  split
  · exact absurd rfl (hv _)
  · exact absurd rfl (hv _)
  · rfl

theorem expand_zero (env : Environment) (a : Address) :
    expand env 0 (.pair a) = throw (.eval (.expansionLimit maxDepth)) := by
  unfold expand expandWith
  rfl

theorem expand_circular {room : Nat} {a : Address} (hs : s.splitList? (.pair a) = none) :
    expand env (room + 1) (.pair a) s = .ok (.pair a) s := by
  unfold expand expandWith
  refine (Action.inspect_bind _ _ s).trans ?_
  rw [hs]
  rfl

theorem expand_list {room : Nat} {a : Address} :
    s.splitList? (.pair a) = some (items, tail) → expand env (room + 1) (.pair a) s =
      (match headOf env items s with
        | .use m => transcribe env m (.pair a) >>= expand env room
        | .quote => return .pair a
        | .quasiquote =>
          match items, tail with
          | [keyword, v], .null => do
            let v ← expandTemplate env room s.walkBound 1 v
            Build.list [keyword, v]
          | _, _ => return .pair a
        | .binding => do
          let body ← (items.drop 2).mapM fun v => expand env room v
          Build.listWithTail (items.take 2 ++ body) tail
        | .defineSyntax => do
          defineSyntax env (items.drop 1) tail
          return .pair a
        | .letSyntax keyword => letSyntax env keyword (items.drop 1) tail >>= expand env room
        | .other => do
          let items ← items.mapM fun v => expand env room v
          Build.listWithTail items tail : Action Value) s := by
  intro hs
  conv_lhs => unfold expand expandWith
  refine (Action.inspect_bind _ _ s).trans ?_
  rw [hs]
  refine (Action.inspect_bind _ _ s).trans ?_
  cases headOf env items s with
  | quasiquote => rcases items with _ | ⟨_, _ | ⟨_, _ | _⟩⟩ <;> cases tail <;> rfl
  | _ => rfl

theorem expand_quasiquote_other {room : Nat} {a : Address}
    (hs : s.splitList? (.pair a) = some (items, tail)) (hhead : headOf env items s = .quasiquote)
    (h : ¬ ∃ keyword v, items = [keyword, v] ∧ tail = .null) :
    expand env (room + 1) (.pair a) s = .ok (.pair a) s := by
  rw [expand_list hs, hhead]
  dsimp only
  split
  · exact absurd ⟨_, _, rfl, rfl⟩ h
  · rfl

theorem headOf_use {t : Transformer} (h : headOf env items s = .use t) :
    ∃ x more, items = .symbol x :: more ∧ s.transformer? x.name env.chain = some t := by
  unfold headOf at h
  split at h
  · rename_i x more
    refine ⟨x, more, rfl, ?_⟩
    split at h
    · cases h
      assumption
    · split_ifs at h
      unfold coreHead at h
      split_ifs at h
  · cases h

/-- Heads other than those of uses and of ordinary lists are identifiers of the user's, and their
names tell which they are. -/
theorem headOf_core {head : Head} (h : headOf env items s = head) (hother : head ≠ .other)
    (huse : ∀ t, head ≠ .use t) : ∃ x more, items = .symbol x :: more ∧ x.isStamped = false ∧
      coreHead x.name items.length = head := by
  unfold headOf at h
  split at h
  · rename_i x more
    split at h
    · exact absurd h.symm (huse _)
    · split_ifs at h with hstamped
      · exact absurd h.symm hother
      · exact ⟨x, more, rfl, Bool.eq_false_iff.mpr hstamped, h⟩
  · exact absurd h.symm hother

theorem headOf_defineSyntax (h : headOf env items s = .defineSyntax) :
    ∃ x more, items = .symbol x :: more ∧ x.name = "define-syntax" ∧ x.isStamped = false := by
  obtain ⟨x, more, rfl, hx, hcore⟩ := headOf_core h (by simp) (by simp)
  unfold coreHead at hcore
  split_ifs at hcore
  exact ⟨x, more, rfl, by simp_all, hx⟩

theorem headOf_letSyntax {keyword : String} (h : headOf env items s = .letSyntax keyword) :
    ∃ x more, items = .symbol x :: more ∧ keyword = x.name ∧
      (x.name = "let-syntax" ∨ x.name = "letrec-syntax") ∧ x.isStamped = false := by
  obtain ⟨x, more, rfl, hx, hcore⟩ := headOf_core h (by simp) (by simp)
  unfold coreHead at hcore
  split_ifs at hcore
  cases hcore
  exact ⟨x, more, rfl, rfl, by simp_all, hx⟩

theorem firstMatch?_mem {form : Value} {rules : List Rule} {found : Rule × Bindings}
    (h : firstMatch? s form rules = some found) :
    found.1 ∈ rules ∧ found.1.bindings s form = .ok found.2 := by
  induction rules with
  | nil => cases h
  | cons r more ih =>
    unfold firstMatch? at h
    split at h
    · rename_i bs hbs
      cases h
      exact ⟨List.mem_cons_self, hbs⟩
    · exact ⟨List.mem_cons_of_mem _ (ih h).1, (ih h).2⟩

section Template

variable {room fuel level : Nat}

theorem expandTemplate_zero (env : Environment) (room level : Nat) (v : Value) :
    expandTemplate env room 0 level v = throw .endless := by
  unfold expandTemplate expandTemplateWith
  rfl

theorem expandTemplate_form {keyword : QuasiKeyword} {operand : Value}
    (h : s.quasiForm? v = some (keyword, operand)) :
    expandTemplate env room (fuel + 1) level v s =
      ((if keyword = .quasiquote then expandTemplate env (room - 1) fuel (level + 1) operand
        else if level = 1 then expand env (room - 1) operand
        else expandTemplate env (room - 1) fuel (level - 1) operand) >>= fun operand =>
          liftM (Build.list [.name keyword.name, operand]) : Action Value) s := by
  conv_lhs => unfold expandTemplate expandTemplateWith
  refine (Action.inspect_bind _ _ s).trans ?_
  rw [h]
  dsimp only
  split_ifs <;> rfl

theorem expandTemplate_pair {a : Address} (h : s.quasiForm? (.pair a) = none) :
    expandTemplate env room (fuel + 1) level (.pair a) s =
      (do
        let car ← expandTemplate env (room - 1) fuel level (s.pairAt a).car
        let cdr ← expandTemplate env room fuel level (s.pairAt a).cdr
        Build.cons car cdr : Action Value) s := by
  conv_lhs => unfold expandTemplate expandTemplateWith
  refine (Action.inspect_bind _ _ s).trans ?_
  rw [h]
  rfl

theorem expandTemplate_vector {a : Address} :
    expandTemplate env room (fuel + 1) level (.vector a) s =
      ((s.vectorAt a).toList.mapM (expandTemplate env (room - 1) fuel level) >>= fun items =>
        liftM (Build.vector items.toArray) : Action Value) s := by
  conv_lhs => unfold expandTemplate expandTemplateWith
  rfl

theorem expandTemplate_leaf (hp : ∀ a, v ≠ .pair a) (hv : ∀ a, v ≠ .vector a) :
    expandTemplate env room (fuel + 1) level v = pure v := by
  unfold expandTemplate expandTemplateWith
  funext s
  cases v with
  | pair a => exact absurd rfl (hp a)
  | vector a => exact absurd rfl (hv a)
  | _ => rfl

end Template

end Expansion

end HygienicScheme
