import HygienicScheme.Proofs.Store.Chains
import HygienicScheme.Proofs.Store.Growth
import Mathlib.Logic.Relation

/-!
# What can be reached from a value

Values may be circular, so what holds of everything that can be reached from one is shown by an
invariant of the values on the way.
-/
namespace HygienicScheme.Store

/-- The second value stands in a slot of the first. -/
inductive Slot (s : Store) : Value → Value → Prop
  | car {a : Address} : Slot s (.pair a) (s.pairAt a).car
  | cdr {a : Address} : Slot s (.pair a) (s.pairAt a).cdr
  | item {a : Address} {v : Value} (h : v ∈ (s.vectorAt a).toList) : Slot s (.vector a) v

/-- It holds of the value and of all that can be reached from it through slots. -/
def Throughout (s : Store) (P : Value → Prop) (v : Value) : Prop :=
  ∀ w, Relation.ReflTransGen s.Slot v w → P w

variable {s t : Store} {P Q : Value → Prop} {v w : Value}

namespace Throughout

theorem here (h : s.Throughout P v) : P v := h v .refl

theorem slot (h : s.Throughout P v) (hw : s.Slot v w) : s.Throughout P w :=
  fun u hu => h u (.head hw hu)

theorem mono (h : s.Throughout P v) (hPQ : ∀ w, P w → Q w) : s.Throughout Q v :=
  fun w hw => hPQ w (h w hw)

theorem chain (h : s.Throughout P v) {items : List Value} {tail : Value}
    (hchain : s.Chain v items tail) : (∀ w ∈ items, s.Throughout P w) ∧ s.Throughout P tail := by
  induction hchain with
  | tail => exact ⟨by simp, h⟩
  | pair _ ih =>
    obtain ⟨hmore, htail⟩ := ih (h.slot .cdr)
    exact ⟨List.forall_mem_cons.mpr ⟨h.slot .car, hmore⟩, htail⟩

theorem of_invariant (hslot : ∀ v w, P v → s.Slot v w → P w) (h : P v) : s.Throughout P v := by
  intro w hw
  induction hw with
  | refl => exact h
  | tail _ hstep ih => exact hslot _ _ ih hstep

end Throughout

theorem throughout_of_slots (h : P v) (hslots : ∀ w, s.Slot v w → s.Throughout P w) :
    s.Throughout P v := by
  intro u hu
  rcases Relation.ReflTransGen.cases_head hu with rfl | ⟨w, hw, hrest⟩
  · exact h
  · exact hslots w hw u hrest

theorem throughout_leaf (hp : ∀ a, v ≠ .pair a) (hv : ∀ a, v ≠ .vector a) (h : P v) :
    s.Throughout P v := by
  refine throughout_of_slots h fun w hw => ?_
  cases hw with
  | car | cdr => exact absurd rfl (hp _)
  | item => exact absurd rfl (hv _)

def Ends (s : Store) (v : Value) : Prop := ∃ items tail, s.Chain v items tail

/-- No list that can be reached is circular. -/
def Straight (s : Store) : Value → Prop := s.Throughout s.Ends

/-- By itself the value is no cell outside the store. -/
def Located (s : Store) : Value → Prop
  | .pair a => a < s.pairs.size
  | .vector a => a < s.vectors.size
  | _ => True

/-- All cells that can be reached lie in the store. -/
def Inside (s : Store) : Value → Prop := s.Throughout s.Located

def Leaf (v : Value) : Prop := (∀ a, v ≠ .pair a) ∧ ∀ a, v ≠ .vector a

theorem leaf_null : Leaf .null := ⟨nofun, nofun⟩

theorem Leaf.not_slot (h : Leaf v) : ¬ s.Slot v w := by
  rintro (_ | _ | _)
  · exact h.1 _ rfl
  · exact h.1 _ rfl
  · exact h.2 _ rfl

theorem Located.leads (h : s.Located v) (hpairs : s.pairs.size ≤ t.pairs.size)
    (hvectors : s.vectors.size ≤ t.vectors.size) : t.Located v := by
  cases v with
  | pair a => exact Nat.lt_of_lt_of_le h hpairs
  | vector a => exact Nat.lt_of_lt_of_le h hvectors
  | _ => trivial

theorem slot_grows (h : s.Located v) (hg : s.Grows t) : t.Slot v w ↔ s.Slot v w := by
  cases v with
  | pair a =>
    have ha : t.pairAt a = s.pairAt a := hg.pairAt_eq h
    constructor
    · rintro (_ | _)
      · exact ha ▸ .car
      · exact ha ▸ .cdr
    · rintro (_ | _)
      · exact ha ▸ .car
      · exact ha ▸ .cdr
  | vector a =>
    have ha : t.vectorAt a = s.vectorAt a := hg.vectorAt_eq h
    constructor
    · rintro (_ | _ | hw)
      exact .item (ha ▸ hw)
    · rintro (_ | _ | hw)
      exact .item (ha ▸ hw)
  | _ => exact ⟨nofun, nofun⟩

theorem Inside.grows (h : s.Inside v) (hg : s.Grows t) : t.Inside v :=
  (Throughout.of_invariant (P := s.Inside)
    (fun _ _ hv hw => hv.slot ((slot_grows hv.here hg).mp hw)) h).mono fun _ hw => hw.here.leads hg.pairs_le hg.vectors_le

/-- A list whose pairs lie in the store stays as it is where cells are only added. -/
theorem splitList?_grows (hP : ∀ a, P (.pair a) → a < s.pairs.size ∧ P (s.pairAt a).cdr) (hv : P v)
    (hg : s.Grows t) : t.splitList? v = s.splitList? v := by
  refine Option.ext fun ⟨items, tail⟩ => ?_
  rw [splitList?_eq_some, splitList?_eq_some]
  constructor
  · intro hchain
    induction hchain with
    | tail hp => exact .tail hp
    | @pair a _ _ _ ih =>
      obtain ⟨ha, hcdr⟩ := hP a hv
      rw [hg.pairAt_eq ha] at ih ⊢
      exact .pair (ih hcdr)
  · intro hchain
    induction hchain with
    | tail hp => exact .tail hp
    | @pair a _ _ _ ih =>
      obtain ⟨ha, hcdr⟩ := hP a hv
      rw [← hg.pairAt_eq ha] at ih hcdr ⊢
      exact .pair (ih hcdr)

theorem Inside.splitList?_grows (h : s.Inside v) (hg : s.Grows t) :
    t.splitList? v = s.splitList? v :=
  Store.splitList?_grows (fun _ ha => ⟨ha.here, ha.slot .cdr⟩) h hg

theorem Inside.chain_grows (h : s.Inside v) (hg : s.Grows t) {items : List Value} {tail : Value} :
    t.Chain v items tail ↔ s.Chain v items tail := by
  rw [← splitList?_eq_some, ← splitList?_eq_some, h.splitList?_grows hg]

end HygienicScheme.Store
