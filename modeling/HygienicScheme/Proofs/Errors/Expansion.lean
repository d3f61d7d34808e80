import HygienicScheme.Expansion
import HygienicScheme.Proofs.Errors.Basic
import Mathlib.Tactic.SplitIfs

/-!
# Expansion fails with ordinary errors

A definition of a transformer may be refused, a use may match no rule, a repetition may be uneven,
and a form may be nested too deeply to be expanded; a walk over circular data has no end.
-/
namespace HygienicScheme

def Error.OfUse : Error → Prop
  | .noMatchingRule .. | .shape .. | .ambiguous .. => True
  | _ => False

namespace Ordinary

open HygienicScheme.Action
open Error (Ordinary OfUse)

theorem ordinary_of_use (e : Error) (h : OfUse e) : Ordinary e := by
  cases e <;> trivial

/-! Definitions of transformers -/

section Definitions

variable (c : SyntaxRules.Scope)

theorem refuse {α : Type} (problem : ShapeProblem) :
    Throws (c.fail problem : Except Error α) Ordinary := .error trivial

theorem patternItems {item : Nat → Value → SyntaxRules.Depths →
      Except Error (Pattern × SyntaxRules.Depths)}
    (hitem : ∀ depth v seen, Throws (item depth v seen) Ordinary) (depth : Nat) (tail : Value)
    (repeats : Bool) (items : List Value) (seen : SyntaxRules.Depths) :
    Throws (SyntaxRules.patternItems c item depth tail repeats items seen) Ordinary := by
  fun_induction SyntaxRules.patternItems c item depth tail repeats items seen with
  | case1 => exact .ok _
  | case2 => exact refuse c _
  | case3 => exact (hitem _ _ _).bind fun _ => .ok _
  | case4 => exact refuse c _
  | case5 repeats v seen _ ih => exact (hitem _ _ _).bind fun r => (ih r.2).bind fun _ => .ok _
  | case6 => exact refuse c _
  | case7 => exact refuse c _
  | case8 repeats v next more seen _ _ _ ih =>
    exact (hitem _ _ _).bind fun r => (ih r.2).bind fun _ => .ok _
  | case9 repeats v next more seen _ _ ih =>
    exact (hitem _ _ _).bind fun r => (ih r.2).bind fun _ => .ok _

theorem pattern (fuel depth : Nat) (v : Value) (seen : SyntaxRules.Depths) :
    Throws (SyntaxRules.pattern c fuel depth v seen) Ordinary := by
  induction fuel generalizing depth v seen with
  | zero => exact .error trivial
  | succ fuel ih =>
    unfold SyntaxRules.pattern
    cases v with
    | symbol x =>
      dsimp only
      split_ifs <;> first | exact .ok _ | exact refuse c _
    | pair a =>
      dsimp only
      split
      · exact refuse c _
      · exact (patternItems c ih _ _ _ _ _).bind fun _ => .ok _
    | vector a => exact (patternItems c ih _ _ _ _ _).bind fun _ => .ok _
    | _ => exact .ok _

theorem rulePattern (number : Nat) (v : Value) :
    Throws (SyntaxRules.rulePattern c number v) Ordinary := by
  unfold SyntaxRules.rulePattern
  split
  · exact (patternItems c (pattern c _) _ _ _ _ _).bind fun _ => .ok _
  · exact refuse c _

theorem templateItems {item : Nat → Value → Except Error Template}
    (hitem : ∀ depth v, Throws (item depth v) Ordinary) (depth : Nat) (escaped : Bool)
    (tail : Value) (items : List Value) :
    Throws (SyntaxRules.templateItems c item depth escaped tail items) Ordinary := by
  fun_induction SyntaxRules.templateItems c item depth escaped tail items with
  | case1 => exact .ok _
  | case2 => exact (hitem _ _).bind fun _ => .ok _
  | case3 => exact refuse c _
  | case4 v more _ ellipses ih => exact (hitem _ _).bind fun _ => ih.bind fun _ => .ok _

theorem template (depths : SyntaxRules.Depths) (fuel : Nat) (escaped : Bool) (depth : Nat)
    (v : Value) : Throws (SyntaxRules.template c depths fuel escaped depth v) Ordinary := by
  induction fuel generalizing escaped depth v with
  | zero => exact .error trivial
  | succ fuel ih =>
    unfold SyntaxRules.template
    cases v with
    | symbol x =>
      dsimp only
      split
      · exact refuse c _
      · split
        · split
          · exact refuse c _
          · exact .ok _
        · exact .ok _
    | pair a =>
      dsimp only
      split
      · exact refuse c _
      · split
        · exact ih _ _ _
        · exact (templateItems c (ih escaped) _ _ _ _).bind fun _ => .ok _
    | vector a => exact (templateItems c (ih escaped) _ _ _ _).bind fun _ => .ok _
    | _ => exact .ok _

theorem rule (number : Nat) (v : Value) : Throws (SyntaxRules.rule c number v) Ordinary := by
  unfold SyntaxRules.rule
  split
  · exact (rulePattern c _ _).bind fun _ => (template c _ _ _ _ _).bind fun _ => .ok _
  · exact refuse c _

theorem rules (number : Nat) (clauses : List Value) :
    Throws (SyntaxRules.rules c number clauses) Ordinary := by
  induction clauses generalizing number with
  | nil => exact .ok _
  | cons v more ih => exact (rule c _ _).bind fun _ => (ih _).bind fun _ => .ok _

theorem literal (v : Value) : Throws (SyntaxRules.literal c v) Ordinary := by
  unfold SyntaxRules.literal
  split
  · split
    · exact refuse c _
    · exact .ok _
  · exact refuse c _

theorem literals (v : Value) : Throws (SyntaxRules.literals c v) Ordinary := by
  unfold SyntaxRules.literals
  split
  · exact .mapM (literal c) _
  · exact refuse c _

end Definitions

theorem define (s : Store) (name : String) (spec : Value) :
    Throws (SyntaxRules.define s name spec) Ordinary := by
  unfold SyntaxRules.define
  dsimp only
  split
  · exact refuse _ _
  · split
    · refine (literals _ _).bind fun names => ?_
      split
      · exact refuse _ _
      · exact (rules _ _ _).bind fun _ => .ok _
    · exact refuse _ _
  · exact refuse _ _

/-! Uses of transformers -/

section Transcribing

variable (u : MacroUse)

theorem repeated (vars : List Symbol) {emit : Bindings → Action Value}
    (hemit : ∀ bs, (emit bs).FailsWith OfUse) (ellipses : Nat) (bs : Bindings) :
    (u.repeated vars emit ellipses bs).FailsWith OfUse := by
  induction ellipses generalizing bs with
  | zero => exact (hemit bs).bind fun _ => .pure _
  | succ ellipses ih =>
    unfold MacroUse.repeated
    split
    · exact .throw trivial
    · dsimp only
      split
      · exact .throw trivial
      · exact FailsWith.bind (.mapM fun row _ => ih _) fun _ => .pure _

mutual

theorem transcribe (t : Template) (bs : Bindings) : (u.transcribe t bs).FailsWith OfUse := by
  match t with
  | .variable x =>
    unfold MacroUse.transcribe
    split
    · exact .pure _
    · exact .throw trivial
    · exact .throw trivial
  | .free x =>
    unfold MacroUse.transcribe
    exact (FailsWith.inspect _).bind fun _ => .pure _
  | .constant c =>
    unfold MacroUse.transcribe
    exact .pure _
  | .list ts =>
    unfold MacroUse.transcribe
    exact (transcribeItems ts bs).bind fun _ => .lift _
  | .vector ts =>
    unfold MacroUse.transcribe
    exact (transcribeItems ts bs).bind fun _ => .lift _

theorem transcribeItems (ts : TemplateSeq) (bs : Bindings) :
    (u.transcribeItems ts bs).FailsWith OfUse := by
  match ts with
  | .done =>
    unfold MacroUse.transcribeItems
    exact .pure _
  | .tail t =>
    unfold MacroUse.transcribeItems
    exact (transcribe t bs).bind fun _ => .pure _
  | .item t ellipses more =>
    unfold MacroUse.transcribeItems
    exact (repeated u _ (transcribe t) _ _).bind fun _ =>
      (transcribeItems more bs).bind fun _ => .pure _

end

end Transcribing

/-! Stamps: there a walk without an end is all that fails. -/

section Stamps

variable {E : Error → Prop} (hE : E .endless)

theorem rebuild {f : Value → Action Value} (hf : ∀ v, (f v).FailsWith E) (items : List Value)
    (tail : Value) : (Renaming.rebuild f items tail).FailsWith E :=
  FailsWith.bind (.mapM fun v _ => hf v) fun _ => (hf tail).bind fun _ => .lift _

theorem items {f : Value → Action Value} (hf : ∀ v, (f v).FailsWith E) (items : List Value) :
    (items.mapM f >>= fun rs => liftM (Build.vector rs.toArray) : Action Value).FailsWith E :=
  FailsWith.bind (.mapM fun v _ => hf v) fun _ => .lift _

include hE

theorem strip (depth : Nat) (v : Value) : (Renaming.strip depth v).FailsWith E := by
  induction depth generalizing v with
  | zero => exact .throw hE
  | succ depth ih =>
    unfold Renaming.strip
    refine FailsWith.get.bind fun s => (FailsWith.ended hE _).bind fun stamped => ?_
    split
    · cases v with
      | pair a =>
        dsimp only
        split
        · exact rebuild ih _ _
        · exact .pure _
      | vector a => exact items ih _
      | _ => exact .pure _
    · exact .pure _

theorem code_template (bound : List Symbol) (depth : Nat) :
    (∀ v, (Renaming.code bound depth v).FailsWith E) ∧
      ∀ level v, (Renaming.template bound depth level v).FailsWith E := by
  induction depth with
  | zero =>
    constructor
    · intro v
      unfold Renaming.code
      exact .throw hE
    · intro level v
      unfold Renaming.template
      exact .throw hE
  | succ depth ih =>
    obtain ⟨hcode, htemplate⟩ := ih
    constructor
    · intro v
      unfold Renaming.code
      cases v with
      | pair a =>
        refine FailsWith.get.bind fun s => ?_
        split
        · exact .pure _
        · split
          · exact (rebuild (strip hE depth) _ _).bind fun _ => .lift _
          · exact (htemplate _ _).bind fun _ => .lift _
          · exact .pure _
          · exact rebuild hcode _ _
      | vector a => exact strip hE depth _
      | _ => exact .pure _
    · intro level v
      unfold Renaming.template
      refine FailsWith.get.bind fun s => ?_
      split
      · dsimp only
        split
        · exact (htemplate _ _).bind fun _ => .lift _
        · split
          · exact (hcode _).bind fun _ => .lift _
          · exact (htemplate _ _).bind fun _ => .lift _
      · cases v with
        | pair a =>
          exact FailsWith.get.bind fun s => (htemplate _ _).bind fun _ =>
            (htemplate _ _).bind fun _ => .lift _
        | vector a => exact FailsWith.get.bind fun s => items (htemplate _) _
        | _ => exact strip hE depth _

theorem renameIntroduced (v : Value) : (Renaming.renameIntroduced v).FailsWith E := by
  refine FailsWith.get.bind fun s => (FailsWith.ended hE _).bind fun stamped => ?_
  split
  · exact (FailsWith.ended hE _).bind fun bound => (code_template hE bound _).1 v
  · exact .pure _

end Stamps

/-! Forms -/

section Expanding

variable {env : Environment}

theorem use (m : Transformer) (form : Value) :
    (Expansion.transcribe env m form).FailsWith OfUse := by
  refine (FailsWith.inspect _).bind fun found => ?_
  split
  · exact (FailsWith.modifyGet _).bind fun _ => transcribe _ _ _
  · exact (FailsWith.inspect _).bind fun _ => .throw trivial

theorem malformed {α : Type} (keyword : String) (problem : FormProblem) :
    (Action.malformed keyword problem : Action α).FailsWith Ordinary := .throw trivial

theorem defineSyntax (operands : List Value) (tail : Value) :
    (Expansion.defineSyntax env operands tail).FailsWith Ordinary := by
  unfold Expansion.defineSyntax
  split
  · split
    · exact malformed _ _
    · exact .inspect_bind fun s => (FailsWith.except (define s _ _)).bind fun _ => .change _
  · exact (FailsWith.inspect _).bind fun _ => malformed _ _
  · exact malformed _ _

theorem installAll (keyword : String) (bindings : List Value) :
    (Expansion.installAll env keyword bindings).FailsWith Ordinary := by
  induction bindings with
  | nil => exact .pure _
  | cons v more ih =>
    refine (FailsWith.inspect _).bind fun parts => ?_
    split
    · exact (defineSyntax _ _).bind fun _ => ih
    · exact (FailsWith.inspect _).bind fun _ => malformed _ _

theorem letSyntax (keyword : String) (operands : List Value) (tail : Value) :
    (Expansion.letSyntax env keyword operands tail).FailsWith Ordinary := by
  unfold Expansion.letSyntax
  split
  · exact malformed _ _
  · split
    · exact malformed _ _
    · refine (FailsWith.inspect _).bind fun bindings => ?_
      split
      · exact malformed _ _
      · exact (installAll _ _).bind fun _ => (FailsWith.lift _).bind fun _ => .lift _

variable (env) in
structure Expands (room : Nat) : Prop where
  form : ∀ v, (Expansion.expand env room v).FailsWith Ordinary
  template : ∀ fuel level v, (Expansion.expandTemplate env room fuel level v).FailsWith Ordinary

theorem expand_succ {room : Nat} (h : Expands env room) (v : Value) :
    (Expansion.expand env (room + 1) v).FailsWith Ordinary := by
  unfold Expansion.expand Expansion.expandWith
  cases v with
  | pair a =>
    refine (FailsWith.inspect _).bind fun parts => ?_
    split
    · exact .pure _
    · refine (FailsWith.inspect _).bind fun head => ?_
      cases head with
      | use m => exact ((use m _).mono ordinary_of_use).bind fun _ => h.form _
      | quote => exact .pure _
      | quasiquote =>
        dsimp only
        split
        · exact (FailsWith.inspect _).bind fun fuel => (h.template _ _ _).bind fun _ => .lift _
        · exact .pure _
      | binding => exact FailsWith.bind (.mapM fun v _ => h.form v) fun _ => .lift _
      | defineSyntax => exact (defineSyntax _ _).bind fun _ => .pure _
      | letSyntax keyword => exact (letSyntax _ _ _).bind fun _ => h.form _
      | other => exact FailsWith.bind (.mapM fun v _ => h.form v) fun _ => .lift _
  | _ => exact .pure _

theorem expandTemplate {room : Nat}
    (hform : ∀ v, (Expansion.expand env (room - 1) v).FailsWith Ordinary)
    (hless : 0 < room → Expands env (room - 1)) (fuel level : Nat) (v : Value) :
    (Expansion.expandTemplate env room fuel level v).FailsWith Ordinary := by
  induction fuel generalizing level v with
  | zero =>
    unfold Expansion.expandTemplate Expansion.expandTemplateWith
    exact .throw trivial
  | succ fuel ih =>
    have hbelow : ∀ level v,
        (Expansion.expandTemplate env (room - 1) fuel level v).FailsWith Ordinary := by
      by_cases hroom : 0 < room
      · exact (hless hroom).template fuel
      · rw [show room - 1 = room by omega]
        exact ih
    unfold Expansion.expandTemplate Expansion.expandTemplateWith
    refine (FailsWith.inspect _).bind fun form => ?_
    split
    · split
      · exact (hbelow _ _).bind fun _ => .lift _
      · split
        · exact (hform _).bind fun _ => .lift _
        · exact (hbelow _ _).bind fun _ => .lift _
    · cases v with
      | pair a =>
        exact (FailsWith.inspect _).bind fun _ => (hbelow _ _).bind fun _ =>
          (ih _ _).bind fun _ => .lift _
      | vector a => exact (FailsWith.inspect _).bind fun _ => items (hbelow level) _
      | _ => exact .pure _

theorem expands (room : Nat) : Expands env room := by
  induction room with
  | zero =>
    have hform : ∀ v, (Expansion.expand env 0 v).FailsWith Ordinary := by
      intro v
      unfold Expansion.expand Expansion.expandWith
      cases v <;> first | exact .throw trivial | exact .pure _
    exact ⟨hform, expandTemplate hform fun h => absurd h (by simp)⟩
  | succ room ih => exact ⟨expand_succ ih, expandTemplate ih.form fun _ => ih⟩

end Expanding

theorem expandToplevel (env : Environment) (form : Value) :
    (Expansion.expandToplevel env form).FailsWith Ordinary :=
  (FailsWith.change _).bind fun _ =>
    ((expands _).form form).bind fun v => renameIntroduced trivial v

end Ordinary

end HygienicScheme
