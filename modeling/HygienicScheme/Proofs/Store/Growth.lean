import HygienicScheme.Store.Basic

/-!
# Stores that only grow

Building puts new cells behind the old ones. A store that grows keeps every pair and every vector
it had, so whatever was known of a value whose cells lie inside the store stays known.
-/
namespace HygienicScheme

theorem getD_modify {α : Type} (xs : Array α) (f : α → α) (i a : Nat) (d : α) :
    (xs.modify i f).getD a d = if i = a ∧ a < xs.size then f (xs.getD a d) else xs.getD a d := by
  by_cases ha : a < xs.size
  · by_cases hia : i = a
    · simp [Array.getD, Array.size_modify, Array.getElem_modify, ha, hia]
    · simp [Array.getD, Array.size_modify, Array.getElem_modify, ha, hia]
  · simp [Array.getD, Array.size_modify, ha]

namespace Store

/-- The second store has the cells of the first, unchanged, and maybe more. -/
structure Grows (s t : Store) : Prop where
  pairs_le : s.pairs.size ≤ t.pairs.size
  vectors_le : s.vectors.size ≤ t.vectors.size
  pairAt_eq : ∀ {a : Address}, a < s.pairs.size → t.pairAt a = s.pairAt a
  vectorAt_eq : ∀ {a : Address}, a < s.vectors.size → t.vectorAt a = s.vectorAt a

namespace Grows

theorem refl (s : Store) : s.Grows s :=
  ⟨Nat.le_refl _, Nat.le_refl _, fun _ => rfl, fun _ => rfl⟩

theorem trans {s t u : Store} (h : s.Grows t) (k : t.Grows u) : s.Grows u where
  pairs_le := Nat.le_trans h.pairs_le k.pairs_le
  vectors_le := Nat.le_trans h.vectors_le k.vectors_le
  pairAt_eq ha := (k.pairAt_eq (Nat.lt_of_lt_of_le ha h.pairs_le)).trans (h.pairAt_eq ha)
  vectorAt_eq ha := (k.vectorAt_eq (Nat.lt_of_lt_of_le ha h.vectors_le)).trans (h.vectorAt_eq ha)

theorem of_cells_eq {s t : Store} (hp : t.pairs = s.pairs) (hv : t.vectors = s.vectors) :
    s.Grows t where
  pairs_le := Nat.le_of_eq (by rw [hp])
  vectors_le := Nat.le_of_eq (by rw [hv])
  pairAt_eq _ := by rw [pairAt, pairAt, hp]
  vectorAt_eq _ := by rw [vectorAt, vectorAt, hv]

end Grows

theorem cells_lt_walkBound (s : Store) : s.cells + 2 ≤ s.walkBound := by
  rw [walkBound]
  exact Nat.le_mul_of_pos_right _ (by omega)

theorem exists_walkBound (s : Store) : ∃ n, s.walkBound = n + 1 :=
  ⟨s.walkBound - 1, by have := s.cells_lt_walkBound; omega⟩

theorem pairAt_push_lt (s : Store) (p : Pair) {a : Address} (ha : a < s.pairs.size) :
    ({ s with pairs := s.pairs.push p } : Store).pairAt a = s.pairAt a := by
  simp [pairAt, Array.getD, Array.getElem_push, ha, Nat.lt_succ_of_lt ha]

theorem pairAt_push_size (s : Store) (p : Pair) :
    ({ s with pairs := s.pairs.push p } : Store).pairAt s.pairs.size = p := by
  simp [pairAt, Array.getD]

theorem vectorAt_push_lt (s : Store) (items : Array Value) {a : Address}
    (ha : a < s.vectors.size) :
    ({ s with vectors := s.vectors.push items } : Store).vectorAt a = s.vectorAt a := by
  simp [vectorAt, Array.getD, Array.getElem_push, ha, Nat.lt_succ_of_lt ha]

theorem vectorAt_push_size (s : Store) (items : Array Value) :
    ({ s with vectors := s.vectors.push items } : Store).vectorAt s.vectors.size = items := by
  simp [vectorAt, Array.getD]

theorem pairAt_modify (s : Store) (change : Pair → Pair) (a b : Address) :
    ({ s with pairs := s.pairs.modify a change } : Store).pairAt b =
      if a = b ∧ b < s.pairs.size then change (s.pairAt b) else s.pairAt b :=
  getD_modify s.pairs change a b ⟨.null, .null⟩

theorem vectorAt_modify (s : Store) (change : Array Value → Array Value) (a b : Address) :
    ({ s with vectors := s.vectors.modify a change } : Store).vectorAt b =
      if a = b ∧ b < s.vectors.size then change (s.vectorAt b) else s.vectorAt b :=
  getD_modify s.vectors change a b #[]

theorem grows_push_pair (s : Store) (p : Pair) : s.Grows { s with pairs := s.pairs.push p } where
  pairs_le := by simp
  vectors_le := Nat.le_refl _
  pairAt_eq ha := s.pairAt_push_lt p ha
  vectorAt_eq _ := rfl

theorem grows_push_vector (s : Store) (items : Array Value) :
    s.Grows { s with vectors := s.vectors.push items } where
  pairs_le := Nat.le_refl _
  vectors_le := by simp
  pairAt_eq _ := rfl
  vectorAt_eq ha := s.vectorAt_push_lt items ha

end Store

namespace Build

theorem cons_apply (car cdr : Value) (s : Store) :
    cons car cdr s = (.pair s.pairs.size, { s with pairs := s.pairs.push ⟨car, cdr⟩ }) := rfl

theorem vector_apply (items : Array Value) (s : Store) :
    vector items s = (.vector s.vectors.size, { s with vectors := s.vectors.push items }) := rfl

end Build

end HygienicScheme
