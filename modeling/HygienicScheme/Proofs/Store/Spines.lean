import HygienicScheme.Proofs.Store.Trees

/-!
# Spines

A spine is the row of pairs over which the items of a list lie, up to a tail that may be anything.
It is what consing items onto a tail makes, and a tree that is a chain has one. The pairs of a spine
that is made of items are new, one for each item, and lie behind all the pairs that the store had
before. Nothing else in the store is touched.
-/
namespace HygienicScheme

namespace Store

variable {s t : Store} {first : Address} {v w tail : Value} {items : List Value} {n : Nat}

/-- The value is the items consed onto the tail, in pairs of the store. -/
inductive Spine (s : Store) : Value → List Value → Value → Prop
  | nil {v : Value} : Spine s v [] v
  | cons {a : Address} {items : List Value} {tail : Value} (ha : a < s.pairs.size)
      (h : Spine s (s.pairAt a).cdr items tail) :
      Spine s (.pair a) ((s.pairAt a).car :: items) tail

theorem Spine.grow (h : s.Spine v items tail) (hg : s.Grows t) : t.Spine v items tail := by
  induction h with
  | nil => exact .nil
  | cons ha _ ih =>
    rw [← hg.pairAt_eq ha] at ih ⊢
    exact .cons (Nat.lt_of_lt_of_le ha hg.pairs_le) ih

theorem Spine.of_pairAt {a : Address} {car cdr : Value} (ha : a < s.pairs.size)
    (hp : s.pairAt a = ⟨car, cdr⟩) (h : s.Spine cdr items tail) :
    s.Spine (.pair a) (car :: items) tail := by
  have hcons : s.Spine (.pair a) ((s.pairAt a).car :: items) tail := .cons ha (by rwa [hp])
  rwa [hp] at hcons

theorem Tree.spine (h : s.Tree v) (hchain : s.Chain v items tail) : s.Spine v items tail := by
  induction hchain with
  | tail => exact .nil
  | pair _ ih => exact .cons h.pair_lt (ih h.cdr)

theorem Spine.append {more : List Value} {last : Value} (h : s.Spine v items tail)
    (htail : s.Spine tail more last) : s.Spine v (items ++ more) last := by
  induction h with
  | nil => exact htail
  | cons ha _ ih => exact .cons ha (ih htail)

theorem Spine.chain (h : s.Spine v items tail) (htail : ∀ a, tail ≠ .pair a) :
    s.Chain v items tail := by
  induction h with
  | nil => exact .tail htail
  | cons _ _ ih => exact .pair (ih htail)

theorem Spine.pair_lt {a : Address} (h : s.Spine (.pair a) items tail)
    (htail : ∀ a, tail ≠ .pair a) : a < s.pairs.size := by
  cases h with
  | nil => exact absurd rfl (htail a)
  | cons ha _ => exact ha

theorem Spine.two {x y : Value} (h : s.Spine v [x, y] .null) : ∃ a b, v = .pair a ∧
    a < s.pairs.size ∧ b < s.pairs.size ∧ s.pairAt a = ⟨x, .pair b⟩ ∧ s.pairAt b = ⟨y, .null⟩ := by
  cases h with
  | @cons a _ _ ha hcdr =>
    generalize hb : (s.pairAt a).cdr = rest at hcdr
    cases hcdr with
    | @cons b _ _ hb' hnull =>
      generalize hc : (s.pairAt b).cdr = last at hnull
      cases hnull
      exact ⟨a, b, rfl, ha, hb', by rw [← hb], by rw [← hc]⟩

theorem Within.grow (h : s.Within n v) (hv : s.Tree v) (hg : s.Grows t) : t.Within n v := by
  induction n generalizing v with
  | zero => exact h
  | succ n ih =>
    cases v with
    | pair a =>
      rw [Within, hg.pairAt_eq hv.pair_lt]
      exact ⟨ih h.1 hv.car, ih h.2 hv.cdr⟩
    | vector a =>
      rw [Within, hg.vectorAt_eq hv.vector_lt]
      exact fun w hw => ih (h w hw) (hv.item hw)
    | _ => trivial

theorem Within.chain (h : s.Within n v) (hchain : s.Chain v items tail) :
    (∀ w ∈ items, s.Within (n - 1) w) ∧ s.Within n tail := by
  induction hchain generalizing n with
  | tail => exact ⟨by simp, h⟩
  | pair _ ih =>
    cases n with
    | zero => exact absurd rfl (h.1 _)
    | succ n =>
      obtain ⟨hitems, htail⟩ := ih h.2
      have hmore : ∀ w ∈ _, s.Within n w := fun w hw => (hitems w hw).mono (Nat.sub_le n 1)
      exact ⟨List.forall_mem_cons.mpr ⟨h.1, hmore⟩, htail.succ⟩

theorem Within.parts {a : Address} (h : s.Within (n + 1) (.pair a))
    (hchain : s.Chain (.pair a) items tail) :
    (∀ w ∈ items, s.Within n w) ∧ s.Within n tail := by
  cases hchain with
  | tail hpair => exact absurd rfl (hpair a)
  | pair hcdr =>
    obtain ⟨hitems, htail⟩ := Within.chain h.2 hcdr
    have hmore : ∀ w ∈ _, s.Within n w := fun w hw => (hitems w hw).mono (Nat.sub_le n 1)
    exact ⟨List.forall_mem_cons.mpr ⟨h.1, hmore⟩, htail⟩

/-! ### What is made by consing -/

inductive SpineFrom (s : Store) (first : Address) : Value → List Value → Value → Prop
  | nil {v : Value} : SpineFrom s first v [] v
  | cons {a : Address} {items : List Value} {tail : Value} (hfirst : first ≤ a)
      (ha : a < s.pairs.size) (h : SpineFrom s first (s.pairAt a).cdr items tail) :
      SpineFrom s first (.pair a) ((s.pairAt a).car :: items) tail

namespace SpineFrom

theorem of_pairs (h : s.SpineFrom first v items tail) (hsize : s.pairs.size ≤ t.pairs.size)
    (hpairs : ∀ a, first ≤ a → a < s.pairs.size → t.pairAt a = s.pairAt a) :
    t.SpineFrom first v items tail := by
  induction h with
  | nil => exact .nil
  | cons hfirst ha _ ih =>
    rw [← hpairs _ hfirst ha] at ih ⊢
    exact .cons hfirst (Nat.lt_of_lt_of_le ha hsize) ih

theorem grow (h : s.SpineFrom first v items tail) (hg : s.Grows t) :
    t.SpineFrom first v items tail :=
  h.of_pairs hg.pairs_le fun _ _ ha => hg.pairAt_eq ha

theorem spine (h : s.SpineFrom first v items tail) : s.Spine v items tail := by
  induction h with
  | nil => exact .nil
  | cons _ ha _ ih => exact .cons ha ih

end SpineFrom

structure MakesSpine (s : Store) (items : List Value) (tail v : Value) (t : Store) : Prop where
  spine : t.SpineFrom s.pairs.size v items tail
  pairs : ∃ new : List Pair, new.length = items.length ∧
    t = { s with pairs := s.pairs ++ new.toArray }

namespace MakesSpine

theorem nil : s.MakesSpine [] v v s := ⟨.nil, [], rfl, by simp⟩

theorem cons (h : s.MakesSpine items tail v t) :
    s.MakesSpine (w :: items) tail (.pair t.pairs.size)
      { t with pairs := t.pairs.push ⟨w, v⟩ } := by
  obtain ⟨hspine, new, hlength, rfl⟩ := h
  refine ⟨?_, new ++ [⟨w, v⟩], by simp [hlength], by simp [Array.push_append]⟩
  set t : Store := { s with pairs := s.pairs ++ new.toArray }
  have hpair : ({ t with pairs := t.pairs.push ⟨w, v⟩ } : Store).pairAt t.pairs.size = ⟨w, v⟩ :=
    t.pairAt_push_size ⟨w, v⟩
  have hmore := hspine.grow (t.grows_push_pair ⟨w, v⟩)
  have hcons : ({ t with pairs := t.pairs.push ⟨w, v⟩ } : Store).SpineFrom s.pairs.size
      (.pair t.pairs.size) _ tail := .cons (by simp [t]) (by simp) (by rwa [hpair])
  rwa [hpair] at hcons

theorem grows (h : s.MakesSpine items tail v t) : s.Grows t := by
  obtain ⟨-, new, -, rfl⟩ := h
  exact ⟨by simp, Nat.le_refl _,
    fun ha => by simp [pairAt, Array.getD_eq_getD_getElem?, Array.getElem?_append, ha],
    fun _ => rfl⟩

end MakesSpine

end Store

namespace Build

variable {v tail : Value} {items : List Value} {s t : Store}

theorem consReversed_makes (reversed : List Value) (h : s.MakesSpine items tail v t) :
    s.MakesSpine (reversed.reverse ++ items) tail (consReversed reversed v t).1
      (consReversed reversed v t).2 := by
  induction reversed generalizing v t items with
  | nil => exact h
  | cons w more ih =>
    rw [List.reverse_cons, List.append_assoc, List.singleton_append]
    exact ih h.cons

theorem listWithTail_makes (items : List Value) (tail : Value) (s : Store) :
    s.MakesSpine items tail (listWithTail items tail s).1 (listWithTail items tail s).2 := by
  have h := consReversed_makes items.reverse (.nil (s := s) (v := tail))
  rwa [List.reverse_reverse, List.append_nil] at h

theorem listWithTail_rest (items : List Value) (tail : Value) (s : Store) :
    (listWithTail items tail s).2 = { s with pairs := (listWithTail items tail s).2.pairs } := by
  obtain ⟨new, -, hstore⟩ := (listWithTail_makes items tail s).pairs
  rw [hstore]

theorem listWithTail_cells (items : List Value) (tail : Value) (s : Store) :
    (listWithTail items tail s).2.cells = s.cells + items.length := by
  obtain ⟨new, hlength, hstore⟩ := (listWithTail_makes items tail s).pairs
  simp only [hstore, Store.cells, Array.size_append, List.size_toArray, hlength]
  omega

theorem listWithTail_spine (items : List Value) (tail : Value) (s : Store) :
    s.Grows (listWithTail items tail s).2 ∧
      (listWithTail items tail s).2.Spine (listWithTail items tail s).1 items tail :=
  have h := listWithTail_makes items tail s
  ⟨h.grows, h.spine.spine⟩

theorem list_two {x y : Value} {s t : Store} (h : list [x, y] s = (v, t)) : s.Grows t ∧
    ∃ a b, v = .pair a ∧ a < t.pairs.size ∧ b < t.pairs.size ∧
      t.pairAt a = ⟨x, .pair b⟩ ∧ t.pairAt b = ⟨y, .null⟩ := by
  have hspine := listWithTail_spine [x, y] .null s
  rw [show listWithTail [x, y] .null s = (v, t) from h] at hspine
  exact ⟨hspine.1, hspine.2.two⟩

end Build

/-! ### Lists that are made -/

namespace Store

variable {s t : Store} {first : Address} {v : Value} {items : List Value}

inductive ListFrom (s : Store) (first : Address) : Value → List Value → Prop
  | nil : ListFrom s first .null []
  | cons {a : Address} {items : List Value} (hfirst : first ≤ a) (ha : a < s.pairs.size)
      (h : ListFrom s first (s.pairAt a).cdr items) :
      ListFrom s first (.pair a) ((s.pairAt a).car :: items)

theorem ListFrom.chain (h : s.ListFrom first v items) : s.Chain v items .null := by
  induction h with
  | nil => exact .tail nofun
  | cons _ _ _ ih => exact .pair ih

theorem SpineFrom.listFrom {tail : Value} (h : s.SpineFrom first v items tail)
    (htail : tail = .null) : s.ListFrom first v items := by
  induction h with
  | nil => exact htail ▸ .nil
  | cons hfirst ha _ ih => exact .cons hfirst ha (ih htail)

structure MakesList (s : Store) (items : List Value) (v : Value) (t : Store) : Prop where
  list : t.ListFrom s.pairs.size v items
  pairs : ∃ new : List Pair, new.length = items.length ∧
    t = { s with pairs := s.pairs ++ new.toArray }

end Store

theorem Build.list_makes (items : List Value) (s : Store) :
    s.MakesList items (list items s).1 (list items s).2 :=
  have h := listWithTail_makes items .null s
  ⟨h.spine.listFrom rfl, h.pairs⟩

end HygienicScheme
