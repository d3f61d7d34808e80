import HygienicScheme.Proofs.Store.Chains
import Mathlib.Data.Finset.Card

/-!
# Circular chains

A chain of pairs that never ends leads back into itself: it comes to some pair again after a number
of steps, and from there on to every pair that many steps later. The two pointers that split a list
meet at the first multiple of this number that is not before the circle. This is no further than
there are pairs in the store, so the pointers have met before the bound on their steps.
-/
namespace HygienicScheme.Store

variable {s : Store} {v tail : Value} {items : List Value} {n m k : Nat}

def Endless (s : Store) (v : Value) : Prop := ∀ n, ∃ a, s.dropPairs n v = .pair a

def Circular (s : Store) (v : Value) : Prop :=
  ∃ before around a, 0 < around ∧ s.dropPairs before v = .pair a ∧
    s.dropPairs (before + around) v = .pair a

theorem dropPairs_add (n m : Nat) (v : Value) :
    s.dropPairs (n + m) v = s.dropPairs m (s.dropPairs n v) := by
  induction n generalizing v with
  | zero => rw [Nat.zero_add, dropPairs]
  | succ n ih => rw [Nat.succ_add, dropPairs, ih, ← dropPairs]

theorem Chain.dropPairs_length (h : s.Chain v items tail) : s.dropPairs items.length v = tail := by
  induction h with
  | tail => rfl
  | pair _ ih => exact ih

theorem chain_of_ended (h : ∀ a, s.dropPairs n v ≠ .pair a) :
    ∃ items tail, s.Chain v items tail := by
  induction n generalizing v with
  | zero => exact ⟨[], v, .tail h⟩
  | succ n ih =>
    cases v with
    | pair a =>
      obtain ⟨items, tail, hchain⟩ := ih h
      exact ⟨_, tail, .pair hchain⟩
    | _ => exact ⟨[], _, .tail nofun⟩

theorem endless_iff : s.Endless v ↔ ∀ items tail, ¬ s.Chain v items tail := by
  constructor
  · intro h items tail hchain
    obtain ⟨a, ha⟩ := h items.length
    exact hchain.tail_ne_pair a (hchain.dropPairs_length.symm.trans ha)
  · intro h n
    by_contra hn
    obtain ⟨items, tail, hchain⟩ := chain_of_ended (not_exists.mp hn)
    exact h items tail hchain

/-- All pairs of an endless chain are in the store: outside there are only lists that end. -/
theorem Endless.lt {a : Address} (h : s.Endless (.pair a)) : a < s.pairs.size := by
  by_contra ha
  obtain ⟨b, hb⟩ := h 1
  have hcdr : (s.pairAt a).cdr = .pair b := hb
  rw [Chain.pairAt_eq_default (Nat.le_of_not_lt ha)] at hcdr
  cases hcdr

theorem Endless.drop (h : s.Endless v) (n : Nat) : s.Endless (s.dropPairs n v) := by
  intro m
  rw [← dropPairs_add]
  exact h (n + m)

theorem dropPairs_around (h : s.dropPairs (n + k) v = s.dropPairs n v) (hm : n ≤ m) :
    s.dropPairs (m + k) v = s.dropPairs m v := by
  obtain ⟨i, rfl⟩ := Nat.exists_eq_add_of_le hm
  rw [Nat.add_right_comm, dropPairs_add, h, ← dropPairs_add]

theorem dropPairs_rounds (h : s.dropPairs (n + k) v = s.dropPairs n v) (hm : n ≤ m) (i : Nat) :
    s.dropPairs (m + k * i) v = s.dropPairs m v := by
  induction i with
  | zero => rfl
  | succ i ih =>
    rw [Nat.mul_succ, ← Nat.add_assoc, dropPairs_around h (Nat.le_add_right_of_le hm), ih]

theorem Endless.repeats (h : s.Endless v) :
    ∃ i j, i < j ∧ j ≤ s.pairs.size ∧ s.dropPairs j v = s.dropPairs i v := by
  have hlt : ∀ n a, s.dropPairs n v = .pair a → a < s.pairs.size :=
    fun n a ha => (ha ▸ h.drop n : s.Endless (.pair a)).lt
  choose address haddress using h
  have hmaps : ∀ n ∈ Finset.range (s.pairs.size + 1), address n ∈ Finset.range s.pairs.size :=
    fun n _ => Finset.mem_range.mpr (hlt n _ (haddress n))
  obtain ⟨i, hi, j, hj, hne, heq⟩ :=
    Finset.exists_ne_map_eq_of_card_lt_of_maps_to (by simp) hmaps
  have hsame : s.dropPairs i v = s.dropPairs j v := by rw [haddress, haddress, heq]
  have hi := Nat.le_of_lt_succ (Finset.mem_range.mp hi)
  have hj := Nat.le_of_lt_succ (Finset.mem_range.mp hj)
  rcases Nat.lt_or_gt_of_ne hne with hlt | hlt
  · exact ⟨i, j, hlt, hj, hsame.symm⟩
  · exact ⟨j, i, hlt, hi, hsame⟩

theorem ended_of_le (h : ∀ a, s.dropPairs n v ≠ .pair a) (hm : n ≤ m) :
    ∀ a, s.dropPairs m v ≠ .pair a := by
  induction hm with
  | refl => exact h
  | step _ ih =>
    intro a
    rw [dropPairs_succ]
    generalize s.dropPairs _ v = w at ih
    cases w with
    | pair b => exact absurd rfl (ih b)
    | _ => nofun

theorem circular_iff : s.Circular v ↔ s.Endless v := by
  constructor
  · rintro ⟨before, around, a, haround, hbefore, hagain⟩ n
    by_contra hn
    have hpair : s.dropPairs (before + around * n) v = .pair a :=
      (dropPairs_rounds (hagain.trans hbefore.symm) (Nat.le_refl _) n).trans hbefore
    have hle : n ≤ before + around * n :=
      Nat.le_add_left_of_le (Nat.le_mul_of_pos_left n haround)
    exact ended_of_le (not_exists.mp hn) hle a hpair
  · intro h
    obtain ⟨i, j, hij, -, hsame⟩ := h.repeats
    obtain ⟨a, ha⟩ := h i
    refine ⟨i, j - i, a, Nat.sub_pos_of_lt hij, ha, ?_⟩
    rw [Nat.add_sub_cancel' (Nat.le_of_lt hij), hsame, ha]

/-- The pointers come to the same pair before the slow one has gone more steps than the store has
pairs. -/
theorem Endless.meets (h : s.Endless v) :
    ∃ m, 0 < m ∧ m ≤ s.pairs.size ∧ s.dropPairs (2 * m) v = s.dropPairs m v := by
  obtain ⟨i, j, hij, hj, hsame⟩ := h.repeats
  obtain ⟨around, rfl⟩ := Nat.exists_eq_add_of_le (Nat.le_of_lt hij)
  have haround : 0 < around := by omega
  -- The first multiple of the length of the circle beyond the pair that comes twice.
  have hlow := Nat.lt_mul_div_succ i haround
  have hhigh := Nat.mul_div_le i around
  rw [Nat.mul_succ] at hlow
  refine ⟨around * (i / around + 1), ?_, ?_, ?_⟩
  · rw [Nat.mul_succ]
    omega
  · rw [Nat.mul_succ]
    omega
  · rw [Nat.two_mul]
    exact dropPairs_rounds hsame (by rw [Nat.mul_succ]; omega) _

theorem Endless.chase_round (h : s.Endless v) (k steps : Nat) (seen : List Value) :
    ∃ seen', s.chase (steps + 2) false seen (s.dropPairs k v) (s.dropPairs (2 * k) v) =
      if samePair (s.dropPairs (k + 1) v) (s.dropPairs (2 * (k + 1)) v) then some none
      else s.chase steps false seen' (s.dropPairs (k + 1) v) (s.dropPairs (2 * (k + 1)) v) := by
  obtain ⟨slow, hslow⟩ := h k
  obtain ⟨first, hfirst⟩ := h (2 * k)
  obtain ⟨second, hsecond⟩ := h (2 * k + 1)
  have hcdr : (s.pairAt first).cdr = .pair second := by
    rw [← hsecond, dropPairs_succ, hfirst]
    rfl
  have hslow' : s.dropPairs (k + 1) v = (s.pairAt slow).cdr := by
    rw [dropPairs_succ, hslow]
    rfl
  have hthird : s.dropPairs (2 * (k + 1)) v = (s.pairAt second).cdr := by
    rw [Nat.mul_succ, dropPairs_succ, hsecond]
    rfl
  rw [hslow, hfirst, chase_first, hcdr, chase_second, hslow', hthird]
  exact ⟨_, rfl⟩

theorem Endless.chase_of_meeting {seen : List Value} {i steps : Nat} (h : s.Endless v)
    (hmeet : s.dropPairs (2 * (k + (i + 1))) v = s.dropPairs (k + (i + 1)) v)
    (hsteps : 2 * (i + 1) ≤ steps) :
    s.chase steps false seen (s.dropPairs k v) (s.dropPairs (2 * k) v) = some none := by
  induction i generalizing k seen steps with
  | zero =>
    obtain ⟨steps, rfl⟩ := Nat.exists_eq_add_of_le' hsteps
    obtain ⟨seen', hround⟩ := h.chase_round k steps seen
    obtain ⟨a, ha⟩ := h (k + 1)
    rw [hround, hmeet, ha]
    exact if_pos (beq_self_eq_true a)
  | succ i ih =>
    obtain ⟨steps, rfl⟩ := Nat.exists_eq_add_of_le' (Nat.le_trans (by omega) hsteps : 2 ≤ steps)
    obtain ⟨seen', hround⟩ := h.chase_round k steps seen
    rw [hround]
    split
    · rfl
    · refine ih ?_ (by omega)
      rwa [Nat.add_assoc k 1, Nat.add_comm 1]

theorem chase_decides (s : Store) (v : Value) :
    s.chase (2 * s.pairs.size + 1) false [] v v = some (s.splitList? v) := by
  have hdecided : ∀ r, s.chase (2 * s.pairs.size + 1) false [] v v = some r →
      s.chase (2 * s.pairs.size + 1) false [] v v = some (s.splitList? v) := by
    intro r h
    rw [splitList?, h]
    rfl
  by_cases hend : ∃ items tail, s.Chain v items tail
  · obtain ⟨items, tail, hchain⟩ := hend
    exact hdecided _ (Option.join_eq_some_iff.mp (splitList?_eq_some.mpr hchain))
  · have h : s.Endless v := endless_iff.mpr fun items tail hchain => hend ⟨items, tail, hchain⟩
    obtain ⟨m, hm, hle, hmeet⟩ := h.meets
    obtain ⟨i, rfl⟩ := Nat.exists_eq_add_of_lt hm
    simp only [Nat.zero_add] at hmeet hle
    rw [← Nat.zero_add (i + 1)] at hmeet
    exact hdecided _ (h.chase_of_meeting hmeet (by omega))

/-- A list cannot be split exactly where its chain of pairs is circular. -/
theorem splitList?_eq_none : s.splitList? v = none ↔ s.Circular v := by
  rw [circular_iff, endless_iff, Option.eq_none_iff_forall_ne_some]
  simp only [Prod.forall, ne_eq, splitList?_eq_some]

end HygienicScheme.Store
