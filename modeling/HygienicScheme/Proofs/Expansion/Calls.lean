import HygienicScheme.Proofs.Expansion.Trees

/-!
# What the expander calls itself on

Expanding a form makes the expander expand what a use was replaced by, the body of a `let-syntax`
form, the items of a list one after the other and what a template unquotes. Each of these calls is
made from the store in which those before it have ended. None of them has more room than the call
that makes it; where the room stays the same, as along the cdrs of a template, the template is
lower. So no sequence of calls, each made by the one before, goes on forever, and every use on the
way takes some room away.
-/
namespace HygienicScheme.Expansion

open Store (Tree)
open Reference (innerLevel)

/-- A form or a template to be expanded, with the room that is left and the store. -/
inductive Call
  | form (room : Nat) (v : Value) (s : Store)
  | template (room level : Nat) (v : Value) (s : Store)

namespace Call

def room : Call → Nat
  | form room _ _ | template room _ _ _ => room

def value : Call → Value
  | form _ v _ | template _ _ v _ => v

def store : Call → Store
  | form _ _ s | template _ _ _ s => s

structure Ready (c : Call) : Prop where
  compiled : c.store.Compiled
  tree : c.store.Tree c.value

end Call

variable {env : Environment} {room level n : Nat} {v : Value} {s : Store} {c d e : Call}

inductive Rewrites (env : Environment) : Call → Call → Prop
  | intro {room : Nat} {a : Address} {s t : Store} {items : List Value} {tail w : Value}
      {m : Transformer} (hsplit : s.splitList? (.pair a) = some (items, tail))
      (hhead : headOf env items s = .use m) (h : transcribe env m (.pair a) s = .ok w t) :
      Rewrites env (.form (room + 1) (.pair a) s) (.form room w t)

def expandedItems (items : List Value) : Head → List Value
  | .binding => items.drop 2
  | .other => items
  | _ => []

/-- The first call makes the second. -/
inductive Calls (env : Environment) : Call → Call → Prop
  | use {c d : Call} (h : Rewrites env c d) : Calls env c d
  | body {room : Nat} {a : Address} {s t : Store} {items : List Value} {tail w : Value}
      {keyword : String} (hsplit : s.splitList? (.pair a) = some (items, tail))
      (hhead : headOf env items s = .letSyntax keyword)
      (h : letSyntax env keyword (items.drop 1) tail s = .ok w t) :
      Calls env (.form (room + 1) (.pair a) s) (.form room w t)
  | item {room : Nat} {a : Address} {s t : Store} {items before after ws : List Value}
      {tail w : Value} (hsplit : s.splitList? (.pair a) = some (items, tail))
      (hitems : expandedItems items (headOf env items s) = before ++ w :: after)
      (h : before.mapM (expand env room) s = .ok ws t) :
      Calls env (.form (room + 1) (.pair a) s) (.form room w t)
  | quasiquote {room : Nat} {a : Address} {s : Store} {keyword w : Value}
      (hsplit : s.splitList? (.pair a) = some ([keyword, w], .null))
      (hhead : headOf env [keyword, w] s = .quasiquote) :
      Calls env (.form (room + 1) (.pair a) s) (.template room 1 w s)
  | code {room : Nat} {v operand : Value} {s : Store} {keyword : QuasiKeyword}
      (hform : s.quasiForm? v = some (keyword, operand)) (hkeyword : keyword ≠ .quasiquote) :
      Calls env (.template room 1 v s) (.form (room - 1) operand s)
  | inner {room level : Nat} {v operand : Value} {s : Store} {keyword : QuasiKeyword}
      (hform : s.quasiForm? v = some (keyword, operand))
      (hlevel : keyword = .quasiquote ∨ level ≠ 1) :
      Calls env (.template room level v s)
        (.template (room - 1) (innerLevel keyword level) operand s)
  | car {room level : Nat} {a : Address} {s : Store} (hform : s.quasiForm? (.pair a) = none) :
      Calls env (.template room level (.pair a) s)
        (.template (room - 1) level (s.pairAt a).car s)
  | cdr {room level fuel : Nat} {a : Address} {s t : Store} {w : Value}
      (hform : s.quasiForm? (.pair a) = none)
      (h : expandTemplate env (room - 1) fuel level (s.pairAt a).car s = .ok w t) :
      Calls env (.template room level (.pair a) s) (.template room level (s.pairAt a).cdr t)
  | vectorItem {room level fuel : Nat} {a : Address} {s t : Store} {before after ws : List Value}
      {w : Value} (hitems : (s.vectorAt a).toList = before ++ w :: after)
      (h : before.mapM (expandTemplate env (room - 1) fuel level) s = .ok ws t) :
      Calls env (.template room level (.vector a) s) (.template (room - 1) level w t)

/-! ## Room -/

theorem Rewrites.room_lt (h : Rewrites env c d) : d.room < c.room := by
  cases h with
  | intro => exact Nat.lt_succ_self _

theorem Calls.room_le (h : Calls env c d) : d.room ≤ c.room := by
  cases h with
  | use h => exact Nat.le_of_lt h.room_lt
  | body | item | quasiquote => exact Nat.le_succ _
  | code | inner | car | vectorItem => exact Nat.sub_le _ 1
  | cdr => exact Nat.le_refl _

theorem room_le_of_reached (h : Relation.ReflTransGen (Calls env) c d) : d.room ≤ c.room := by
  induction h with
  | refl => exact Nat.le_refl _
  | tail _ hcall ih => exact Nat.le_trans hcall.room_le ih

inductive UseChain (env : Environment) : Nat → Call → Prop
  | nil (c : Call) : UseChain env 0 c
  | cons {n : Nat} {c d e : Call} (hfound : Relation.ReflTransGen (Calls env) c d)
      (hrewrites : Rewrites env d e) (hmore : UseChain env n e) : UseChain env (n + 1) c

theorem UseChain.le_room (h : UseChain env n c) : n ≤ c.room := by
  induction h with
  | nil => exact Nat.zero_le _
  | cons hfound hrewrites _ ih =>
    have hfound := room_le_of_reached hfound
    have huse := hrewrites.room_lt
    omega

/-! ## Calls on acyclic values -/

theorem mem_of_expandedItems {items : List Value} {head : Head}
    (h : v ∈ expandedItems items head) : v ∈ items := by
  cases head with
  | binding => exact List.mem_of_mem_drop h
  | other => exact h
  | _ => cases h

section Kept

variable {D : ExpansionDiscipline}

theorem keeps_row {f : Value → Action Value} {vs ws : List Value} {t : Store} (hs : D.Holds s)
    (hvs : ∀ v ∈ vs, D.Data s v)
    (hf : ∀ {v t}, D.Holds t → D.Data t v → D.Keeps (f v) t D.Data) (h : vs.mapM f s = .ok ws t) :
    D.Holds t ∧ D.Leads s t := by
  have hkeeps : D.Keeps (vs.mapM f) s fun t ws => ∀ w ∈ ws, D.Data t w :=
    .mapM hs (fun hst hw => D.data_leads hst hw) fun v hv t ht hst =>
      hf ht (D.data_leads hst (hvs v hv))
  exact (hkeeps.of_ok h).1

theorem Calls.keeps (henv : D.Scope env) (h : Calls env c d) (hs : D.Holds c.store)
    (hv : D.Data c.store c.value) :
    (D.Holds d.store ∧ D.Leads c.store d.store) ∧ D.Data d.store d.value := by
  have hforms : ∀ room, D.Expands env room := fun room => (ExpansionDiscipline.expands henv room).1
  have htemplates : ∀ room, D.ExpandsTemplates env room := fun room =>
    (ExpansionDiscipline.expands henv room).2
  cases h with
  | use h =>
    cases h with
    | intro _ hhead h =>
      obtain ⟨x, -, -, hx⟩ := headOf_use hhead
      exact (ExpansionDiscipline.keeps_use hs hx hv).of_ok h
  | body hsplit hhead h =>
    have hform := Store.splitList?_eq_some.mp hsplit
    obtain ⟨y, more, rfl, rfl, hkeyword, huser⟩ := headOf_letSyntax hhead
    have hmore := (List.forall_mem_cons.mp (D.chain hs hv hform).1).2
    refine (SyntaxDiscipline.keeps_letSyntax henv y.name hs hmore ?_).of_ok h
    rintro bindings body parts rfl rfl hbindings v hv t ht x spec hchain
    exact D.defined (.binding
      ⟨hform.of_pairs_eq ht, hkeyword, huser, hbindings.of_pairs_eq ht, hv⟩ hchain)
  | @item _ _ _ _ items before after _ _ w hsplit hexpanded h =>
    have hitems : ∀ v ∈ before ++ w :: after, D.Data _ v := fun v hmem =>
      (D.chain hs hv (Store.splitList?_eq_some.mp hsplit)).1 v
        (mem_of_expandedItems (hexpanded ▸ hmem))
    -- The item is expanded after those before it, which keep the discipline.
    have hkept := keeps_row hs (fun v hmem => hitems v (List.mem_append_left _ hmem))
      (hforms _) h
    exact ⟨hkept, D.data_leads hkept.2 (hitems w (by simp))⟩
  | quasiquote hsplit _ =>
    have hitems := (D.chain hs hv (Store.splitList?_eq_some.mp hsplit)).1
    exact ⟨⟨hs, D.refl _⟩, hitems _ (.tail _ (.head _))⟩
  | code hform _ | inner hform _ =>
    obtain ⟨a, head, rfl, -, hchain⟩ := Store.quasiForm?_chain hform
    exact ⟨⟨hs, D.refl _⟩, (D.chain hs hv hchain).1 _ (.tail _ (.head _))⟩
  | car _ => exact ⟨⟨hs, D.refl _⟩, D.car hs hv⟩
  | cdr _ h =>
    obtain ⟨hkept, -⟩ := (htemplates _ _ _ hs (D.car hs hv)).of_ok h
    exact ⟨hkept, D.data_leads hkept.2 (D.cdr hs hv)⟩
  | @vectorItem _ _ _ _ _ _ before after _ w hitems h =>
    have hall : ∀ v ∈ before ++ w :: after, D.Data _ v := fun v hmem =>
      D.item hs hv v (hitems ▸ hmem)
    have hkept := keeps_row hs (fun v hmem => hall v (List.mem_append_left _ hmem))
      (htemplates _ _ _) h
    exact ⟨hkept, D.data_leads hkept.2 (hall w (by simp))⟩

end Kept

theorem Calls.ready (h : Calls env c d) (hc : c.Ready) : d.Ready := by
  have hkept := h.keeps (D := Tree.discipline) trivial hc.compiled hc.tree
  exact ⟨hkept.1.1, hkept.2⟩

/-! ## No endless sequence of calls -/

def Finishes (env : Environment) (c : Call) : Prop := Acc (Function.swap (Calls env)) c

theorem Calls.lower (h : Calls env (.template room level v s) d)
    (hc : (Call.template room level v s).Ready) (hn : s.Within n v) :
    ∃ k, n = k + 1 ∧ d.store.Within k d.value := by
  cases n with
  | zero =>
    cases h with
    | use h => cases h
    | code hform _ | inner hform _ =>
      obtain ⟨a, rfl⟩ := Store.quasiForm?_pair hform
      exact absurd rfl (hn.1 a)
    | car | cdr => exact absurd rfl (hn.1 _)
    | vectorItem => exact absurd rfl (hn.2 _)
  | succ k =>
    refine ⟨k, rfl, ?_⟩
    obtain ⟨hs, hv⟩ := hc
    cases h with
    | use h => cases h
    | code hform _ | inner hform _ => exact hn.operand hform
    | car => exact hn.1
    | cdr _ h =>
      obtain ⟨⟨-, hg⟩, -⟩ := (Tree.keeps_expandTemplate hs hv.car).of_ok h
      exact Store.Within.grow hn.2 hv.cdr hg
    | @vectorItem _ _ _ _ _ _ before after _ w hitems h =>
      have hitems' : ∀ v ∈ before ++ w :: after, v ∈ (s.vectorAt _).toList := fun v hmem =>
        hitems ▸ hmem
      have hbefore := fun v hmem => hv.item (hitems' v (List.mem_append_left _ hmem))
      obtain ⟨-, hg⟩ := keeps_row (D := Tree.discipline) hs hbefore Tree.keeps_expandTemplate h
      have hw := hitems' w (by simp)
      exact Store.Within.grow (hn w hw) (hv.item hw) hg

/-- Down a template the calls end if they do so in the code that it unquotes and where there is less
room. -/
theorem template_finishes (room : Nat)
    (hforms : ∀ {v s}, (Call.form (room - 1) v s).Ready → Finishes env (.form (room - 1) v s))
    (hless : 0 < room → ∀ {level v s}, (Call.template (room - 1) level v s).Ready →
      Finishes env (.template (room - 1) level v s)) {n level : Nat} {v : Value} {s : Store}
    (hc : (Call.template room level v s).Ready) (hn : s.Within n v) :
    Finishes env (.template room level v s) := by
  induction n generalizing level v s with
  | zero =>
    refine ⟨_, fun d hd => ?_⟩
    obtain ⟨k, hk, -⟩ := Calls.lower hd hc hn
    cases hk
  | succ n ih =>
    -- Where no room is left it stays so, and then the height alone falls.
    have hbelow : ∀ {level v s}, (Call.template (room - 1) level v s).Ready → s.Within n v →
        Finishes env (.template (room - 1) level v s) := by
      by_cases hroom : 0 < room
      · exact fun hc _ => hless hroom hc
      · rw [show room - 1 = room by omega]
        exact ih
    refine ⟨_, fun d hd => ?_⟩
    have hready := Calls.ready hd hc
    obtain ⟨k, hk, hlower⟩ := Calls.lower hd hc hn
    cases hk
    cases hd with
    | use h => cases h
    | code => exact hforms hready
    | inner | car | vectorItem => exact hbelow hready hlower
    | cdr => exact ih hready hlower

theorem finishes_zero : Finishes env (.form 0 v s) := by
  refine ⟨_, fun d hd => ?_⟩
  cases hd with
  | use h => cases h

theorem Call.Ready.finishes (hc : c.Ready) : Finishes env c := by
  suffices h : ∀ room, (∀ {v s}, (Call.form room v s).Ready → Finishes env (.form room v s)) ∧
      ∀ {level v s}, (Call.template room level v s).Ready →
        Finishes env (.template room level v s) by
    cases c with
    | form room => exact (h room).1 hc
    | template room => exact (h room).2 hc
  intro room
  induction room with
  | zero =>
    exact ⟨fun _ => finishes_zero, fun hc => template_finishes 0 (fun _ => finishes_zero)
      (fun h => absurd h (by simp)) hc hc.tree.within⟩
  | succ room ih =>
    obtain ⟨hforms, htemplates⟩ := ih
    have hdown : ∀ {level v s}, (Call.template (room + 1) level v s).Ready →
        Finishes env (.template (room + 1) level v s) := fun hc =>
      template_finishes (room + 1) hforms (fun _ => htemplates) hc hc.tree.within
    refine ⟨fun {v s} hc => ⟨_, fun d hd => ?_⟩, hdown⟩
    have hready := Calls.ready hd hc
    cases hd with
    | use h =>
      cases h with
      | intro => exact hforms hready
    | body | item => exact hforms hready
    | quasiquote => exact htemplates hready

end HygienicScheme.Expansion
