import HygienicScheme.Proofs.Expansion.Compiled
import HygienicScheme.Proofs.Store.Spines
import Mathlib.Logic.Equiv.Defs

/-!
# Forms under a renaming of the user's names

A bijection on names acts on the identifiers that a user wrote and leaves the stamped ones alone.
`Renamed π s t v w` relates an acyclic value of one store to what `π` makes of it in another. The
two values have one shape, and the tests by which expansion looks at a form, those for names that
`π` fixes, come out alike on both.
-/
namespace HygienicScheme

namespace Symbol

/-- A user's identifier under another name; a stamped one stays. -/
def rename (π : Equiv.Perm String) (x : Symbol) : Symbol :=
  if x.isStamped then x else { x with name := π x.name }

variable {π : Equiv.Perm String} {x : Symbol} {k : String}

theorem rename_of_stamped (h : x.isStamped) : x.rename π = x := if_pos h

theorem rename_of_unstamped (h : x.isStamped = false) :
    x.rename π = { x with name := π x.name } := by
  rw [rename, h]
  rfl

@[simp] theorem isStamped_rename : (x.rename π).isStamped = x.isStamped := by
  unfold rename
  split <;> rfl

theorem rename_user (h : π k = k) : (user k).rename π = user k := by
  simp [rename, user, isStamped, userPhase, h]

theorem name_rename_eq (h : π k = k) : (x.rename π).name = k ↔ x.name = k := by
  unfold rename
  split
  · rfl
  · constructor
    · intro hx
      exact π.injective (hx.trans h.symm)
    · intro hx
      exact (congrArg π hx).trans h

theorem name_rename_beq (h : π k = k) : ((x.rename π).name == k) = (x.name == k) := by
  rw [Bool.eq_iff_iff, beq_iff_eq, beq_iff_eq]
  exact name_rename_eq h

end Symbol

/-- The names of the special forms stay what they are. -/
def FixesCore (π : Equiv.Perm String) : Prop := ∀ k ∈ coreKeywords, π k = k

/-- The second value is the first under the renaming. -/
inductive Renamed (π : Equiv.Perm String) (s t : Store) : Value → Value → Prop
  | constant {v : Value} (h : v.isConstant) : Renamed π s t v v
  | string {x y : StringRef} (h : x.text = y.text) : Renamed π s t (.string x) (.string y)
  | symbol (x : Symbol) : Renamed π s t (.symbol x) (.symbol (x.rename π))
  | pair {a b : Address} (ha : a < s.pairs.size) (hb : b < t.pairs.size)
      (hcar : Renamed π s t (s.pairAt a).car (t.pairAt b).car)
      (hcdr : Renamed π s t (s.pairAt a).cdr (t.pairAt b).cdr) :
      Renamed π s t (.pair a) (.pair b)
  | vector {a b : Address} (ha : a < s.vectors.size) (hb : b < t.vectors.size)
      (hsize : (s.vectorAt a).toList.length = (t.vectorAt b).toList.length)
      (hitems : ∀ v w, (v, w) ∈ (s.vectorAt a).toList.zip (t.vectorAt b).toList →
        Renamed π s t v w) : Renamed π s t (.vector a) (.vector b)

namespace Renamed

variable {π : Equiv.Perm String} {s t s' t' : Store} {v w : Value}

theorem grow (h : Renamed π s t v w) (hs : s.Grows s') (ht : t.Grows t') :
    Renamed π s' t' v w := by
  induction h with
  | constant h => exact constant h
  | string h => exact string h
  | symbol x => exact symbol x
  | pair ha hb _ _ hcar hcdr =>
    rw [← hs.pairAt_eq ha, ← ht.pairAt_eq hb] at hcar hcdr
    exact pair (Nat.lt_of_lt_of_le ha hs.pairs_le) (Nat.lt_of_lt_of_le hb ht.pairs_le) hcar hcdr
  | vector ha hb hsize _ ih =>
    rw [← hs.vectorAt_eq ha, ← ht.vectorAt_eq hb] at hsize ih
    exact vector (Nat.lt_of_lt_of_le ha hs.vectors_le) (Nat.lt_of_lt_of_le hb ht.vectors_le)
      hsize ih

theorem items {a b : Address} (h : Renamed π s t (.vector a) (.vector b)) :
    List.Forall₂ (Renamed π s t) (s.vectorAt a).toList (t.vectorAt b).toList := by
  cases h with
  | constant h => cases h
  | vector _ _ hsize hitems => exact List.forall₂_iff_zip.mpr ⟨hsize, hitems _ _⟩

theorem vector_of_forall₂ {a b : Address} (ha : a < s.vectors.size) (hb : b < t.vectors.size)
    (h : List.Forall₂ (Renamed π s t) (s.vectorAt a).toList (t.vectorAt b).toList) :
    Renamed π s t (.vector a) (.vector b) :=
  vector ha hb h.length_eq fun _ _ hvw => (List.forall₂_iff_zip.mp h).2 hvw

theorem tree_left (h : Renamed π s t v w) : s.Tree v := by
  induction h with
  | constant h => exact .leaf (by rintro a rfl; cases h) (by rintro a rfl; cases h)
  | string _ => exact .leaf (by simp) (by simp)
  | symbol _ => exact .leaf (by simp) (by simp)
  | pair ha _ _ _ hcar hcdr => exact .pair ha hcar hcdr
  | @vector a b ha _ hsize _ ih =>
    refine .vector ha fun v hv => ?_
    obtain ⟨w, hw⟩ := List.mem_map.mp ((List.map_fst_zip (Nat.le_of_eq hsize)).symm ▸ hv)
    exact ih v w.2 (hw.2 ▸ hw.1)

theorem tree_right (h : Renamed π s t v w) : t.Tree w := by
  induction h with
  | constant h => exact .leaf (by rintro a rfl; cases h) (by rintro a rfl; cases h)
  | string _ => exact .leaf (by simp) (by simp)
  | symbol _ => exact .leaf (by simp) (by simp)
  | pair _ hb _ _ hcar hcdr => exact .pair hb hcar hcdr
  | @vector a b _ hb hsize _ ih =>
    refine .vector hb fun w hw => ?_
    obtain ⟨v, hv⟩ := List.mem_map.mp ((List.map_snd_zip (Nat.le_of_eq hsize.symm)).symm ▸ hw)
    exact ih v.1 w (hv.2 ▸ hv.1)

theorem isNull_eq (h : Renamed π s t v w) : w.isNull = v.isNull := by
  cases h <;> rfl

theorem eq_null (h : Renamed π s t .null w) : w = .null := by
  cases h; rfl

theorem of_null (h : Renamed π s t v .null) : v = .null := by
  cases h; rfl

theorem chain {items : List Value} {tail : Value} (h : Renamed π s t v w)
    (hchain : s.Chain v items tail) :
    ∃ items' tail', t.Chain w items' tail' ∧ List.Forall₂ (Renamed π s t) items items' ∧
      Renamed π s t tail tail' := by
  induction hchain generalizing w with
  | @tail v hv =>
    refine ⟨[], w, .tail ?_, .nil, h⟩
    rintro b rfl
    cases h with
    | constant h => cases h
    | pair => exact hv _ rfl
  | pair _ ih =>
    cases h with
    | constant h => cases h
    | pair _ _ hcar hcdr =>
      obtain ⟨items', tail', hchain', hitems, htail⟩ := ih hcdr
      exact ⟨_, tail', .pair hchain', .cons hcar hitems, htail⟩

theorem splitList (h : Renamed π s t v w) :
    ∃ items tail items' tail', s.splitList? v = some (items, tail) ∧
      t.splitList? w = some (items', tail') ∧ List.Forall₂ (Renamed π s t) items items' ∧
      Renamed π s t tail tail' := by
  obtain ⟨items, tail, hchain⟩ := h.tree_left.chain
  obtain ⟨items', tail', hchain', hitems, htail⟩ := h.chain hchain
  exact ⟨items, tail, items', tail', Store.splitList?_eq_some.mpr hchain,
    Store.splitList?_eq_some.mpr hchain', hitems, htail⟩

theorem properList (h : Renamed π s t v w) :
    Option.Rel (List.Forall₂ (Renamed π s t)) (s.properList? v) (t.properList? w) := by
  obtain ⟨items, tail, items', tail', hsplit, hsplit', hitems, htail⟩ := h.splitList
  simp only [Store.properList?, hsplit, hsplit']
  by_cases hnull : tail = .null
  · subst hnull
    rw [htail.eq_null]
    exact .some hitems
  · have hnull' : tail' ≠ .null := by
      rintro rfl
      exact hnull htail.of_null
    cases tail <;> cases tail' <;>
      first | exact .none | exact absurd rfl hnull | exact absurd rfl hnull'

theorem of_spine {items items' : List Value} {tail tail' : Value} (hv : s.Spine v items tail)
    (hw : t.Spine w items' tail') (hitems : List.Forall₂ (Renamed π s t) items items')
    (htail : Renamed π s t tail tail') : Renamed π s t v w := by
  induction hv generalizing w items' with
  | nil =>
    cases hitems
    cases hw
    exact htail
  | cons ha _ ih =>
    cases hitems with
    | cons hitem hmore =>
      cases hw with
      | cons hb hw => exact pair ha hb hitem (ih hw hmore htail)

theorem dropPairs (h : Renamed π s t v w) (n : Nat) :
    Renamed π s t (s.dropPairs n v) (t.dropPairs n w) := by
  induction n generalizing v w with
  | zero => exact h
  | succ n ih =>
    rw [Store.dropPairs, Store.dropPairs]
    cases h with
    | pair _ _ _ hcdr => exact ih hcdr
    | constant h =>
      refine ih ?_
      cases v <;> first | exact .constant rfl | cases h
    | _ => exact ih (.constant rfl)

theorem symbol_left {x : Symbol} (h : Renamed π s t (.symbol x) w) :
    w = .symbol (x.rename π) := by
  cases h with
  | constant h => cases h
  | symbol => rfl

theorem of_symbol {y : Symbol} (h : Renamed π s t v (.symbol y)) :
    ∃ x, v = .symbol x ∧ y = x.rename π := by
  cases h with
  | constant h => cases h
  | symbol x => exact ⟨x, rfl, rfl⟩

theorem isNamed_eq {k : String} (h : Renamed π s t v w) (hk : π k = k) :
    w.isNamed k = v.isNamed k := by
  cases h with
  | symbol x =>
    exact Symbol.name_rename_beq hk
  | _ => rfl

end Renamed

section Core

variable {π : Equiv.Perm String} {s t : Store} {v w : Value} (hcore : FixesCore π)

include hcore

theorem QuasiKeyword.ofSymbol?_rename (x : Symbol) : ofSymbol? (x.rename π) = ofSymbol? x := by
  unfold ofSymbol?
  rw [Symbol.isStamped_rename, Symbol.name_rename_beq (hcore "quasiquote" (by decide)),
    Symbol.name_rename_beq (hcore "unquote" (by decide)),
    Symbol.name_rename_beq (hcore "unquote-splicing" (by decide))]

theorem QuasiKeyword.fixed {k : QuasiKeyword} : π k.name = k.name := by
  cases k <;> exact hcore _ (by decide)

theorem Renamed.quasiForm (h : Renamed π s t v w) :
    Option.Rel (fun p q => q.1 = p.1 ∧ Renamed π s t p.2 q.2) (s.quasiForm? v)
      (t.quasiForm? w) := by
  have hlist := h.properList
  cases h with
  | constant h => cases v <;> first | exact .none | cases h
  | @pair a b _ _ _ _ =>
    simp only [Store.quasiForm?]
    generalize s.properList? (.pair a) = items, t.properList? (.pair b) = items' at hlist ⊢
    cases hlist with
    | none => exact .none
    | some hitems =>
      cases hitems with
      | nil => exact .none
      | @cons u u' more more' hhead hmore =>
        by_cases hu : ∃ x, u = .symbol x
        · obtain ⟨x, rfl⟩ := hu
          rw [hhead.symbol_left]
          rcases hmore with _ | ⟨hoperand, _ | _⟩
          · exact .none
          · simp only [QuasiKeyword.ofSymbol?_rename hcore]
            cases QuasiKeyword.ofSymbol? x with
            | none => exact .none
            | some keyword => exact .some ⟨rfl, hoperand⟩
          · exact .none
        · have hu' : ∀ y, u' ≠ .symbol y := by
            rintro y rfl
            obtain ⟨x, hx, -⟩ := hhead.of_symbol
            exact hu ⟨x, hx⟩
          split
          · rename_i heq
            exact absurd ⟨_, (List.cons.inj (Option.some.inj heq)).1⟩ hu
          · split
            · rename_i heq
              exact absurd (List.cons.inj (Option.some.inj heq)).1 (hu' _)
            · exact .none
  | _ => exact .none

/-- Related values are both a form of quasiquotation, the same one on related operands, or neither
is. -/
theorem Renamed.quasiForm_cases (h : Renamed π s t v w) :
    (∃ keyword operand operand', s.quasiForm? v = some (keyword, operand) ∧
      t.quasiForm? w = some (keyword, operand') ∧ Renamed π s t operand operand') ∨
    s.quasiForm? v = none ∧ t.quasiForm? w = none := by
  have hform := h.quasiForm hcore
  generalize s.quasiForm? v = form, t.quasiForm? w = form' at hform ⊢
  cases hform with
  | none => exact .inr ⟨rfl, rfl⟩
  | @some p q hpq =>
    obtain ⟨keyword, operand⟩ := p
    obtain ⟨keyword', operand'⟩ := q
    obtain ⟨rfl, hoperand⟩ := hpq
    exact .inl ⟨_, _, _, rfl, rfl, hoperand⟩

end Core

end HygienicScheme
