import HygienicScheme.Proofs.Discipline.Basic
import HygienicScheme.Proofs.Store.Spines
import HygienicScheme.Store.Equality
import Mathlib.Data.List.Forall2

/-!
# Copies

Two values are alike if they are structurally equal to some depth, and a copy of a value stays
alike however the store grows. Building a copy makes it deeper by no more than the cells it takes,
so that comparing a copy with what it was made from ends within the bound of the walk. A pass that
takes a value apart and puts it together again builds a copy if it does so with each part.
-/
namespace HygienicScheme

namespace Value

def same : Value → Value → Bool
  | .string x, .string y => x.text == y.text
  | v, w => v.eqv w

theorem same_right {u v w : Value} (h : v.same w) (k : v.same u) : w.same u := by
  cases v <;> cases w <;> simp only [same, eqv, Bool.false_eq_true] at h <;>
    cases u <;> simp_all [same, eqv]

end Value

namespace Store

variable {s t u : Store} {v w tail tail' : Value} {items items' vs ws : List Value} {n : Nat}

theorem Leaf.of_constant (hv : v.isConstant) : Leaf v := by
  refine ⟨?_, ?_⟩ <;> rintro a rfl <;> cases hv

theorem equalWithin_leaf (hv : Leaf v) : s.equalWithin (n + 1) v w = some (v.same w) := by
  cases v with
  | pair a => exact absurd rfl (hv.1 a)
  | vector a => exact absurd rfl (hv.2 a)
  | _ => cases w <;> rfl

theorem equalWithin_constant (hv : v.isConstant) :
    s.equalWithin (n + 1) v w = some (v.same w) := equalWithin_leaf (.of_constant hv)

theorem equalWithin_pair {a b : Address} : s.equalWithin (n + 1) (.pair a) (.pair b) = some true ↔
    a = b ∨ s.equalWithin n (s.pairAt a).car (s.pairAt b).car = some true ∧
      s.equalWithin n (s.pairAt a).cdr (s.pairAt b).cdr = some true := by
  rw [equalWithin]
  by_cases hab : a = b
  · simp [hab]
  · rw [if_neg (by simpa using hab)]
    split <;> simp_all

theorem allPairs_eq_true {same : Value → Value → Option Bool} :
    allPairs same vs ws = some true ↔ List.Forall₂ (fun v w => same v w = some true) vs ws := by
  induction vs generalizing ws with
  | nil => cases ws <;> simp [allPairs]
  | cons v vs ih =>
    cases ws with
    | nil => simp [allPairs]
    | cons w ws =>
      rw [allPairs, List.forall₂_cons, ← ih]
      split <;> simp_all

theorem equalWithin_vector {a b : Address} :
    s.equalWithin (n + 1) (.vector a) (.vector b) = some true ↔
      a = b ∨ List.Forall₂ (fun v w => s.equalWithin n v w = some true) (s.vectorAt a).toList
        (s.vectorAt b).toList := by
  rw [equalWithin]
  by_cases hab : a = b
  · simp [hab]
  · rw [if_neg (by simpa using hab), ← allPairs_eq_true]
    by_cases hsize : (s.vectorAt a).size = (s.vectorAt b).size
    · simp [hab, hsize]
    · have hlength : ¬ allPairs (s.equalWithin n) (s.vectorAt a).toList (s.vectorAt b).toList =
          some true := fun h => hsize (by simpa using (allPairs_eq_true.mp h).length_eq)
      simp [hab, hsize, hlength]

theorem equalWithin_self : s.equalWithin (n + 1) v v = some true := by
  cases v with
  | pair a => exact equalWithin_pair.mpr (.inl rfl)
  | vector a => exact equalWithin_vector.mpr (.inl rfl)
  | _ => simp [equalWithin, Value.eqv]

theorem equalWithin_succ (h : s.equalWithin n v w = some true) :
    s.equalWithin (n + 1) v w = some true := by
  induction n generalizing v w with
  | zero => cases h
  | succ n ih =>
    cases v with
    | pair a =>
      cases w with
      | pair b =>
        refine equalWithin_pair.mpr ((equalWithin_pair.mp h).imp id fun h => ⟨ih h.1, ih h.2⟩)
      | _ => cases h
    | vector a =>
      cases w with
      | vector b =>
        exact equalWithin_vector.mpr ((equalWithin_vector.mp h).imp id fun h => h.imp fun _ _ => ih)
      | _ => cases h
    | _ => cases w <;> exact h

theorem equalWithin_mono {m : Nat} (h : s.equalWithin n v w = some true) (hnm : n ≤ m) :
    s.equalWithin m v w = some true := by
  induction hnm with
  | refl => exact h
  | step _ ih => exact equalWithin_succ ih

def Alike (s : Store) (v w : Value) : Prop := ∃ n, s.equalWithin n v w = some true

namespace Alike

theorem refl (v : Value) : s.Alike v v := ⟨1, equalWithin_self⟩

theorem chain (h : s.Alike v w) (hchain : s.Chain v items tail) :
    ∃ items' tail', s.Chain w items' tail' ∧ List.Forall₂ s.Alike items items' ∧
      s.Alike tail tail' := by
  obtain ⟨n, h⟩ := h
  induction hchain generalizing n w with
  | @tail v hv =>
    refine ⟨[], w, .tail ?_, .nil, n, h⟩
    rintro b rfl
    cases n with
    | zero => cases h
    | succ n => cases v <;> first | exact absurd rfl (hv _) | cases h
  | @pair a items tail hcdr ih =>
    cases n with
    | zero => cases h
    | succ n =>
      cases w with
      | pair b =>
        rcases equalWithin_pair.mp h with rfl | ⟨hcar, hcdr⟩
        · exact ⟨_, tail, .pair hcdr, List.forall₂_same.mpr fun v _ => refl v, refl tail⟩
        · obtain ⟨items', tail', hchain, hitems, htail⟩ := ih n hcdr
          exact ⟨_, tail', .pair hchain, .cons ⟨n, hcar⟩ hitems, htail⟩
      | _ => cases h

end Alike

def Copies (s : Store) (n : Nat) (v w : Value) : Prop :=
  ∀ t, s.Grows t → t.equalWithin (n + 1) v w = some true

namespace Copies

theorem refl (v : Value) : s.Copies n v v := fun _ _ => equalWithin_self

theorem constant (hv : v.isConstant) (h : v.same w) : s.Copies n v w :=
  fun _ _ => by rw [equalWithin_constant hv, h]

theorem grow (h : s.Copies n v w) (hst : s.Grows t) : t.Copies n v w :=
  fun u htu => h u (hst.trans htu)

theorem mono {m : Nat} (h : s.Copies n v w) (hnm : n ≤ m) : s.Copies m v w :=
  fun t hst => equalWithin_mono (h t hst) (Nat.succ_le_succ hnm)

theorem pair {a b : Address} (ha : a < s.pairs.size) (hb : b < s.pairs.size)
    (hcar : s.Copies n (s.pairAt a).car (s.pairAt b).car)
    (hcdr : s.Copies n (s.pairAt a).cdr (s.pairAt b).cdr) :
    s.Copies (n + 1) (.pair a) (.pair b) := by
  intro t hst
  rw [equalWithin_pair, hst.pairAt_eq ha, hst.pairAt_eq hb]
  exact .inr ⟨hcar t hst, hcdr t hst⟩

theorem vector {a b : Address} (ha : a < s.vectors.size) (hb : b < s.vectors.size)
    (h : List.Forall₂ (s.Copies n) (s.vectorAt a).toList (s.vectorAt b).toList) :
    s.Copies (n + 1) (.vector a) (.vector b) := by
  intro t hst
  rw [equalWithin_vector, hst.vectorAt_eq ha, hst.vectorAt_eq hb]
  exact .inr (h.imp fun _ _ hvw => hvw t hst)

theorem spine (hv : s.Spine v vs tail) (hw : s.Spine w ws tail')
    (h : List.Forall₂ (s.Copies n) vs ws) (htail : s.Copies n tail tail') :
    s.Copies (n + vs.length) v w := by
  induction hv generalizing w ws with
  | nil =>
    cases h
    cases hw
    exact htail
  | cons ha _ ih =>
    cases h with
    | cons hcar h =>
      cases hw with
      | cons hb hw => exact .pair ha hb (hcar.mono (Nat.le_add_right _ _)) (ih hw h htail)

theorem equal? (h : s.Copies n v w) (hn : n ≤ s.cells) : s.equal? v w = some true :=
  equalWithin_mono (h s (.refl s)) (by have := s.cells_lt_walkBound; omega)

end Copies

theorem Grows.cells_le (h : s.Grows t) : s.cells ≤ t.cells :=
  Nat.add_le_add h.pairs_le h.vectors_le

structure Enlarges (s t : Store) : Prop extends s.Grows t where
  frames_eq : t.frames = s.frames

theorem Enlarges.refl (s : Store) : s.Enlarges s := ⟨.refl s, rfl⟩

theorem Enlarges.trans (h : s.Enlarges t) (k : t.Enlarges u) : s.Enlarges u :=
  ⟨h.toGrows.trans k.toGrows, k.frames_eq.trans h.frames_eq⟩

structure Reproduces (s t : Store) (v w : Value) : Prop where
  tree : t.Tree w
  copies : ∀ n, s.Within n v → t.Copies n v w

namespace Reproduces

theorem self (hv : s.Tree v) (hg : s.Grows t) : s.Reproduces t v v :=
  ⟨hv.grow hg, fun _ _ => .refl v⟩

theorem grow (h : s.Reproduces t v w) (hg : t.Grows u) : s.Reproduces u v w :=
  ⟨h.tree.grow hg, fun n hn => (h.copies n hn).grow hg⟩

/-- A copy of each item and of what the items are consed onto makes a copy of the whole. -/
theorem spine (hv : s.Spine v items tail) (hg : s.Grows t) (hw : t.Spine w ws tail')
    (hitems : List.Forall₂ (s.Reproduces t) items ws) (htail : s.Reproduces t tail tail') :
    s.Reproduces t v w := by
  induction hv generalizing w ws with
  | nil =>
    cases hitems
    cases hw
    exact htail
  | cons ha _ ih =>
    cases hitems with
    | cons hitem hitems =>
      cases hw with
      | cons hb hw =>
        have hmore := ih hw hitems htail
        refine ⟨.pair hb hitem.tree hmore.tree, fun n hn => ?_⟩
        cases n with
        | zero => exact absurd rfl (hn.1 _)
        | succ n =>
          refine .pair (Nat.lt_of_lt_of_le ha hg.pairs_le) hb ?_ ?_ <;> rw [hg.pairAt_eq ha]
          · exact hitem.copies n hn.1
          · exact hmore.copies n hn.2

theorem pair {a b : Address} (ha : a < s.pairs.size) (hg : s.Grows t) (hb : b < t.pairs.size)
    (hcar : s.Reproduces t (s.pairAt a).car (t.pairAt b).car)
    (hcdr : s.Reproduces t (s.pairAt a).cdr (t.pairAt b).cdr) :
    s.Reproduces t (.pair a) (.pair b) :=
  .spine (.cons ha .nil) hg (.cons hb .nil) (.cons hcar .nil) hcdr

theorem trees (h : List.Forall₂ (s.Reproduces t) items ws) : ∀ w ∈ ws, t.Tree w := by
  induction h with
  | nil => simp
  | cons hitem _ ih => exact List.forall_mem_cons.mpr ⟨hitem.tree, ih⟩

theorem vector {a b : Address} (ha : a < s.vectors.size) (hg : s.Grows t) (hb : b < t.vectors.size)
    (hitems : List.Forall₂ (s.Reproduces t) (s.vectorAt a).toList (t.vectorAt b).toList) :
    s.Reproduces t (.vector a) (.vector b) := by
  refine ⟨.vector hb (trees hitems), fun n hn => ?_⟩
  cases n with
  | zero => exact absurd rfl (hn.2 _)
  | succ n =>
    refine .vector (Nat.lt_of_lt_of_le ha hg.vectors_le) hb ?_
    rw [hg.vectorAt_eq ha]
    exact ((List.forall₂_and_left _ _).mpr ⟨hn, hitems⟩).imp fun v w hvw => hvw.2.copies n hvw.1

end Reproduces

def Yields (s : Store) (x : Action Value) (v : Value) : Prop :=
  ∀ t, s.Enlarges t → ∃ w u, x t = .ok w u ∧ t.Enlarges u ∧ s.Reproduces u v w

namespace Yields

theorem pure (hv : s.Tree v) : s.Yields (Pure.pure v) v :=
  fun t ht => ⟨v, t, rfl, .refl t, .self hv ht.toGrows⟩

theorem mapM {f : Value → Action Value} (h : ∀ v ∈ items, s.Yields (f v) v) (ht : s.Enlarges t) :
    ∃ ws u, items.mapM f t = .ok ws u ∧ t.Enlarges u ∧
      List.Forall₂ (s.Reproduces u) items ws := by
  induction items generalizing t with
  | nil => exact ⟨[], t, rfl, .refl t, .nil⟩
  | cons v more ih =>
    obtain ⟨hv, hmore⟩ := List.forall_mem_cons.mp h
    obtain ⟨w, t₁, hw, ht₁, hcopy⟩ := hv t ht
    obtain ⟨ws, u, hws, hu, hcopies⟩ := ih hmore (ht.trans ht₁)
    refine ⟨w :: ws, u, ?_, ht₁.trans hu, .cons (hcopy.grow hu.toGrows) hcopies⟩
    rw [List.mapM_cons, Action.bind_ok hw, Action.bind_ok hws]
    rfl

end Yields

theorem Reproduces.listWithTail (hv : s.Spine v items tail) (ht : s.Enlarges t)
    (hitems : List.Forall₂ (s.Reproduces t) items ws) (htail : s.Reproduces t tail tail') :
    ∃ w u, (liftM (Build.listWithTail ws tail') : Action Value) t = .ok w u ∧ t.Enlarges u ∧
      s.Reproduces u v w := by
  obtain ⟨hg, hspine⟩ := Build.listWithTail_spine ws tail' t
  have hframes := congrArg Store.frames (Build.listWithTail_rest ws tail' t)
  refine ⟨_, _, rfl, ⟨hg, hframes⟩, .spine hv (ht.toGrows.trans hg) hspine ?_ (htail.grow hg)⟩
  exact hitems.imp fun v w hvw => hvw.grow hg

theorem Reproduces.relist {front back : List Value} (hv : s.Tree v)
    (hchain : s.Chain v (front ++ back) tail) (ht : s.Enlarges t)
    (hback : List.Forall₂ (s.Reproduces t) back ws) :
    ∃ w u, (liftM (Build.listWithTail (front ++ ws) tail) : Action Value) t = .ok w u ∧
      t.Enlarges u ∧ s.Reproduces u v w := by
  have hfront : List.Forall₂ (s.Reproduces t) front front := List.forall₂_same.mpr fun w hw =>
    .self (hv.items hchain w (by simp [hw])) ht.toGrows
  exact Reproduces.listWithTail (hv.spine hchain) ht (List.rel_append hfront hback)
    (.self (hv.tail hchain) ht.toGrows)

namespace Yields

theorem list {f : Value → Action Value} {front back : List Value} (hv : s.Tree v)
    (hchain : s.Chain v (front ++ back) tail) (h : ∀ w ∈ back, s.Yields (f w) w) :
    s.Yields (back.mapM f >>= fun ws => liftM (Build.listWithTail (front ++ ws) tail)) v := by
  intro t ht
  obtain ⟨ws, t₁, hws, ht₁, hcopies⟩ := mapM h ht
  obtain ⟨w, u, hw, hu, hcopy⟩ := Reproduces.relist hv hchain (ht.trans ht₁) hcopies
  refine ⟨w, u, ?_, ht₁.trans hu, hcopy⟩
  rw [Action.bind_ok hws, hw]

theorem two {x : Action Value} {head : Value} (hv : s.Tree v) (hchain : s.Chain v [head, w] .null)
    (hx : s.Yields x w) :
    s.Yields (x >>= fun w => liftM (Build.list [head, w])) v := by
  intro t ht
  obtain ⟨w', t₁, hw', ht₁, hcopy⟩ := hx t ht
  have hchain : s.Chain v ([head] ++ [w]) .null := hchain
  obtain ⟨r, u, hr, hu, hcopy⟩ := Reproduces.relist hv hchain (ht.trans ht₁) (.cons hcopy .nil)
  refine ⟨r, u, ?_, ht₁.trans hu, hcopy⟩
  rw [Action.bind_ok hw']
  exact hr

theorem cons {x y : Action Value} {a : Address} (ha : a < s.pairs.size)
    (hx : s.Yields x (s.pairAt a).car) (hy : s.Yields y (s.pairAt a).cdr) :
    s.Yields (x >>= fun car => y >>= fun cdr => liftM (Build.cons car cdr)) (.pair a) := by
  intro t ht
  obtain ⟨car, t₁, hcar, ht₁, hcopy⟩ := hx t ht
  obtain ⟨cdr, t₂, hcdr, ht₂, hcopy'⟩ := hy t₁ (ht.trans ht₁)
  obtain ⟨w, u, hw, hu, hwhole⟩ := Reproduces.listWithTail (.cons ha .nil)
    ((ht.trans ht₁).trans ht₂) (.cons (hcopy.grow ht₂.toGrows) .nil) hcopy'
  refine ⟨w, u, ?_, (ht₁.trans ht₂).trans hu, hwhole⟩
  rw [Action.bind_ok hcar, Action.bind_ok hcdr]
  exact hw

theorem vector {f : Value → Action Value} {a : Address} (ha : a < s.vectors.size)
    (h : ∀ w ∈ (s.vectorAt a).toList, s.Yields (f w) w) :
    s.Yields ((s.vectorAt a).toList.mapM f >>= fun ws => liftM (Build.vector ws.toArray))
      (.vector a) := by
  intro t ht
  obtain ⟨ws, t₁, hws, ht₁, hcopies⟩ := mapM h ht
  have hg := t₁.grows_push_vector ws.toArray
  refine ⟨_, _, by rw [Action.bind_ok hws]; rfl, ht₁.trans ⟨hg, rfl⟩,
    .vector ha ((ht.trans ht₁).toGrows.trans hg) (by simp) ?_⟩
  rw [vectorAt_push_size]
  exact hcopies.imp fun v w hvw => hvw.grow hg

end Yields

end Store

end HygienicScheme
