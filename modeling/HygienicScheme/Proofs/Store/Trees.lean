import HygienicScheme.Proofs.Store.Slots
import Mathlib.Data.Finset.Card
import Mathlib.Logic.Relation

/-!
# Acyclic values

A tree is a value that can be unfolded to the end, all of whose cells lie in the store. On a path
down a tree no cell comes twice; hence a tree is no higher than the store has cells, and every walk
over it that is bounded by the size of the store comes to its end.

A walk goes from a value to the values below it, and stops at the leaves. Where all that is no leaf
is one of finitely many cells and no path leads back to where it was, a path visits each of these
cells at most once: the walk is no deeper than there are cells.
-/
namespace HygienicScheme

/-! ### Walks that end -/

section Walks

variable {α : Type} (leaf : α → Prop) (below : α → α → Prop)

def Bounded : Nat → α → Prop
  | 0, v => leaf v
  | n + 1, v => ∀ w, below v w → Bounded n w

variable {leaf below} {v w : α} {n : Nat} (hleaf : ∀ {v w}, leaf v → ¬ below v w)

include hleaf in
theorem Bounded.acc (h : Bounded leaf below n v) : Acc (Function.swap below) v := by
  induction n generalizing v with
  | zero => exact ⟨v, fun w hw => absurd hw (hleaf h)⟩
  | succ n ih => exact ⟨v, fun w hw => ih (h w hw)⟩

theorem not_below_self (h : Acc (Function.swap below) v) : ¬ Relation.TransGen below v v := by
  induction h with
  | intro v _ ih =>
    intro hv
    obtain ⟨w, hw, hback⟩ := Relation.TransGen.head'_iff.mp hv
    exact ih w hw (.tail' hback hw)

theorem acc_of_reached (h : Acc (Function.swap below) v) (hw : Relation.ReflTransGen below v w) :
    Acc (Function.swap below) w := by
  induction hw with
  | refl => exact h
  | tail _ hw ih => exact ih.inv hw

include hleaf in
theorem bounded_of_cells {cell : Nat → α} (cells : Finset Nat)
    (h : ∀ u, Relation.ReflTransGen below v u → ¬ Relation.TransGen below u u)
    (hcells : ∀ u, Relation.ReflTransGen below v u → ¬ leaf u → ∃ c ∈ cells, cell c = u) :
    Bounded leaf below cells.card v := by
  induction hn : cells.card generalizing cells v with
  | zero =>
    by_contra hv
    obtain ⟨c, hc, -⟩ := hcells v .refl hv
    rw [Finset.card_eq_zero.mp hn] at hc
    cases hc
  | succ n ih =>
    intro w hw
    obtain ⟨c, hc, rfl⟩ := hcells v .refl fun hv => hleaf hv hw
    refine ih (cells.erase c) (fun u hu => h u (.head hw hu)) (fun u hu hnot => ?_)
      (by simp [hc, hn])
    obtain ⟨b, hb, rfl⟩ := hcells u (.head hw hu) hnot
    -- Else the path came back to the cell where it began.
    have hne : b ≠ c := by
      rintro rfl
      exact h _ .refl (.head' hw hu)
    exact ⟨b, Finset.mem_erase.mpr ⟨hne, hb⟩, rfl⟩

end Walks

/-! ### Trees and their height -/

namespace Store

/-- Unfolding the value ends, and stays in the store. -/
inductive Tree (s : Store) : Value → Prop
  | leaf {v : Value} (hp : ∀ a, v ≠ .pair a) (hv : ∀ a, v ≠ .vector a) : Tree s v
  | pair {a : Address} (ha : a < s.pairs.size) (hcar : Tree s (s.pairAt a).car)
      (hcdr : Tree s (s.pairAt a).cdr) : Tree s (.pair a)
  | vector {a : Address} (ha : a < s.vectors.size)
      (hitems : ∀ v ∈ (s.vectorAt a).toList, Tree s v) : Tree s (.vector a)

def Within (s : Store) : Nat → Value → Prop
  | 0, v => (∀ a, v ≠ .pair a) ∧ ∀ a, v ≠ .vector a
  | n + 1, v =>
    match v with
    | .pair a => s.Within n (s.pairAt a).car ∧ s.Within n (s.pairAt a).cdr
    | .vector a => ∀ v ∈ (s.vectorAt a).toList, s.Within n v
    | _ => True

variable {s t : Store} {v : Value} {n : Nat}

theorem within_leaf (hp : ∀ a, v ≠ .pair a) (hv : ∀ a, v ≠ .vector a) : s.Within n v := by
  cases n with
  | zero => exact ⟨hp, hv⟩
  | succ n =>
    cases v with
    | pair a => exact absurd rfl (hp a)
    | vector a => exact absurd rfl (hv a)
    | _ => trivial

theorem Within.succ (h : s.Within n v) : s.Within (n + 1) v := by
  induction n generalizing v with
  | zero => exact within_leaf h.1 h.2
  | succ n ih =>
    cases v with
    | pair a => exact ⟨ih h.1, ih h.2⟩
    | vector a => exact fun w hw => ih (h w hw)
    | _ => trivial

theorem Within.mono {m : Nat} (h : s.Within m v) (hmn : m ≤ n) : s.Within n v := by
  induction hmn with
  | refl => exact h
  | step _ ih => exact ih.succ

namespace Tree

theorem car {a : Address} (h : s.Tree (.pair a)) : s.Tree (s.pairAt a).car := by
  cases h with
  | leaf hp => exact absurd rfl (hp a)
  | pair _ hcar _ => exact hcar

theorem cdr {a : Address} (h : s.Tree (.pair a)) : s.Tree (s.pairAt a).cdr := by
  cases h with
  | leaf hp => exact absurd rfl (hp a)
  | pair _ _ hcdr => exact hcdr

theorem pair_lt {a : Address} (h : s.Tree (.pair a)) : a < s.pairs.size := by
  cases h with
  | leaf hp => exact absurd rfl (hp a)
  | pair ha _ _ => exact ha

theorem vector_lt {a : Address} (h : s.Tree (.vector a)) : a < s.vectors.size := by
  cases h with
  | leaf _ hv => exact absurd rfl (hv a)
  | vector ha _ => exact ha

theorem item {a : Address} (h : s.Tree (.vector a)) {v : Value}
    (hv : v ∈ (s.vectorAt a).toList) : s.Tree v := by
  cases h with
  | leaf _ hvector => exact absurd rfl (hvector a)
  | vector _ hitems => exact hitems v hv

theorem chain (h : s.Tree v) : ∃ items tail, s.Chain v items tail := by
  induction h with
  | leaf hp _ => exact ⟨[], _, .tail hp⟩
  | pair _ _ _ _ hcdr =>
    obtain ⟨items, tail, hchain⟩ := hcdr
    exact ⟨_, tail, .pair hchain⟩
  | vector _ _ => exact ⟨[], _, .tail (by simp)⟩

theorem grow (h : s.Tree v) (hg : s.Grows t) : t.Tree v := by
  induction h with
  | leaf hp hv => exact leaf hp hv
  | pair ha _ _ hcar hcdr =>
    rw [← hg.pairAt_eq ha] at hcar hcdr
    exact pair (Nat.lt_of_lt_of_le ha hg.pairs_le) hcar hcdr
  | vector ha _ ih =>
    rw [← hg.vectorAt_eq ha] at ih
    exact vector (Nat.lt_of_lt_of_le ha hg.vectors_le) ih

theorem slot {w : Value} (h : s.Tree v) (hw : s.Slot v w) : s.Tree w := by
  cases hw with
  | car => exact h.car
  | cdr => exact h.cdr
  | item hw => exact h.item hw

theorem acc (h : s.Tree v) : Acc (Function.swap s.Slot) v := by
  induction h with
  | leaf hp hv => exact ⟨_, fun w hw => absurd hw (Leaf.not_slot ⟨hp, hv⟩)⟩
  | pair _ _ _ hcar hcdr =>
    refine ⟨_, fun w hw => ?_⟩
    cases hw with
    | car => exact hcar
    | cdr => exact hcdr
  | vector _ _ ih =>
    refine ⟨_, fun w hw => ?_⟩
    cases hw with
    | item hw => exact ih w hw

end Tree

theorem Tree.items {items : List Value} {tail : Value} (h : s.Tree v)
    (hchain : s.Chain v items tail) : ∀ w ∈ items, s.Tree w := by
  induction hchain with
  | tail => simp
  | pair _ ih => exact List.forall_mem_cons.mpr ⟨h.car, ih h.cdr⟩

theorem Tree.tail {items : List Value} {tail : Value} (h : s.Tree v)
    (hchain : s.Chain v items tail) : s.Tree tail := by
  induction hchain with
  | tail => exact h
  | pair _ ih => exact ih h.cdr

theorem Tree.located (h : s.Tree v) : s.Located v := by
  cases h with
  | @leaf v hp hv =>
    cases v with
    | pair a => exact absurd rfl (hp a)
    | vector a => exact absurd rfl (hv a)
    | _ => trivial
  | pair ha => exact ha
  | vector ha => exact ha

theorem Tree.inside (h : s.Tree v) : s.Inside v :=
  (Throughout.of_invariant (fun _ _ hv => hv.slot) h).mono fun _ hw => hw.located

theorem tree_push_pair {car cdr : Value} (hcar : s.Tree car) (hcdr : s.Tree cdr) :
    { s with pairs := s.pairs.push ⟨car, cdr⟩ }.Tree (.pair s.pairs.size) := by
  have hg := grows_push_pair s ⟨car, cdr⟩
  refine .pair (by simp) ?_ ?_ <;> rw [pairAt_push_size]
  · exact hcar.grow hg
  · exact hcdr.grow hg

theorem tree_push_vector {items : Array Value} (hitems : ∀ v ∈ items.toList, s.Tree v) :
    { s with vectors := s.vectors.push items }.Tree (.vector s.vectors.size) := by
  have hg := grows_push_vector s items
  refine .vector (by simp) ?_
  rw [vectorAt_push_size]
  exact fun v hv => (hitems v hv).grow hg

def cellAt (s : Store) (c : Nat) : Value :=
  if c < s.pairs.size then .pair c else .vector (c - s.pairs.size)

theorem Located.exists_cell (h : s.Located v) (hv : ¬ Leaf v) : ∃ c < s.cells, s.cellAt c = v := by
  cases v with
  | pair a => exact ⟨a, Nat.lt_add_right _ h, if_pos h⟩
  | vector a =>
    refine ⟨s.pairs.size + a, Nat.add_lt_add_left h _, ?_⟩
    rw [cellAt, if_neg (Nat.not_lt.mpr (Nat.le_add_right _ a)), Nat.add_sub_cancel_left]
  | _ => exact absurd ⟨nofun, nofun⟩ hv

theorem within_of_bounded (h : Bounded Leaf s.Slot n v) : s.Within n v := by
  induction n generalizing v with
  | zero => exact h
  | succ n ih =>
    cases v with
    | pair a => exact ⟨ih (h _ .car), ih (h _ .cdr)⟩
    | vector a => exact fun w hw => ih (h w (.item hw))
    | _ => trivial

theorem Tree.within (h : s.Tree v) : s.Within s.cells v := by
  have hcells : ∀ u, Relation.ReflTransGen s.Slot v u → ¬ Leaf u →
      ∃ c ∈ Finset.range s.cells, s.cellAt c = u := by
    intro u hu hnot
    obtain ⟨c, hc, hcell⟩ := (h.inside u hu).exists_cell hnot
    exact ⟨c, Finset.mem_range.mpr hc, hcell⟩
  have hreturn : ∀ u, Relation.ReflTransGen s.Slot v u → ¬ Relation.TransGen s.Slot u u :=
    fun u hu => not_below_self (acc_of_reached h.acc hu)
  have hbounded := bounded_of_cells Leaf.not_slot (Finset.range s.cells) hreturn hcells
  rw [Finset.card_range] at hbounded
  exact within_of_bounded hbounded

end Store

end HygienicScheme
