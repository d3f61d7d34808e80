import HygienicScheme.Proofs.Store.Growth
import HygienicScheme.Store.Equality
import Mathlib.Algebra.GroupWithZero.Nat
import Mathlib.Algebra.Order.BigOperators.Group.List
import Mathlib.Algebra.Order.Group.Nat
import Mathlib.Data.List.Forall2

/-!
# Values that hold data

A value holds a datum when unfolding it in the store gives that tree. Only acyclic values hold one,
and the datum forgets how parts are shared and which string is which. Placing a datum makes a value
that holds it, and any two values that hold the same datum are structurally equal.
-/
namespace HygienicScheme

namespace Datum

@[elab_as_elim]
theorem induction {P : Datum → Prop} (null : P null) (bool : ∀ b, P (bool b))
    (int : ∀ n, P (int n)) (float : ∀ x, P (float x)) (char : ∀ c, P (char c))
    (string : ∀ text, P (string text)) (symbol : ∀ x, P (symbol x))
    (pair : ∀ car cdr, P car → P cdr → P (pair car cdr))
    (vector : ∀ items, (∀ d ∈ items, P d) → P (vector items)) : ∀ d, P d := by
  have hnil : ∀ d ∈ ([] : List Datum), P d := by simp
  have hcons : ∀ d more, P d → (∀ e ∈ more, P e) → ∀ e ∈ d :: more, P e := by
    intro d more hd hmore e he
    rcases List.mem_cons.mp he with rfl | he
    · exact hd
    · exact hmore e he
  exact @Datum.rec P (fun items => ∀ d ∈ items, P d) null bool int float char string symbol pair
    vector hnil hcons

def cells : Datum → Nat
  | pair car cdr => car.cells + cdr.cells + 1
  | vector items => (items.map cells).sum + 1
  | null | bool _ | int _ | float _ | char _ | string _ | symbol _ => 0

theorem cells_lt_of_mem {d : Datum} {items : List Datum} (h : d ∈ items) :
    d.cells < (vector items).cells := by
  have hd := List.le_sum_of_mem (List.mem_map_of_mem (f := cells) h)
  rw [cells]
  exact Nat.lt_succ_of_le hd

theorem place_null (s : Store) : null.place s = (.null, s) := rfl

theorem place_symbol (x : Symbol) (s : Store) : (symbol x).place s = (.symbol x, s) := rfl

theorem place_pair (car cdr : Datum) (s : Store) : (pair car cdr).place s =
    Build.cons (car.place s).1 (cdr.place (car.place s).2).1 (cdr.place (car.place s).2).2 := rfl

end Datum

namespace Store

/-- Unfolding the value in the store gives the datum. -/
inductive Holds (s : Store) : Value → Datum → Prop
  | null : Holds s .null .null
  | bool (b : Bool) : Holds s (.bool b) (.bool b)
  | int (n : Int64) : Holds s (.int n) (.int n)
  | float (x : Float) : Holds s (.float x) (.float x)
  | char (c : Char) : Holds s (.char c) (.char c)
  | string (x : StringRef) : Holds s (.string x) (.string x.text)
  | symbol (x : Symbol) : Holds s (.symbol x) (.symbol x)
  | pair {a : Address} {car cdr : Datum} (ha : a < s.pairs.size)
      (hcar : Holds s (s.pairAt a).car car) (hcdr : Holds s (s.pairAt a).cdr cdr) :
      Holds s (.pair a) (.pair car cdr)
  | vector {a : Address} {items : List Datum} (ha : a < s.vectors.size)
      (hsize : (s.vectorAt a).toList.length = items.length)
      (hitems : ∀ v d, (v, d) ∈ (s.vectorAt a).toList.zip items → Holds s v d) :
      Holds s (.vector a) (.vector items)

namespace Holds

variable {s t : Store} {v w : Value} {d : Datum}

theorem forall₂ {a : Address} {items : List Datum} (h : s.Holds (.vector a) (.vector items)) :
    List.Forall₂ s.Holds (s.vectorAt a).toList items := by
  cases h with
  | vector _ hsize hitems => exact List.forall₂_iff_zip.mpr ⟨hsize, hitems _ _⟩

theorem allPairs_of_forall₂ {same : Value → Value → Option Bool} {vs ws : List Value}
    {items : List Datum}
    (h : List.Forall₂ (fun v d => ∀ w, s.Holds w d → same v w = some true) vs items)
    (k : List.Forall₂ s.Holds ws items) : allPairs same vs ws = some true := by
  induction h generalizing ws with
  | nil => cases k; rfl
  | cons hv _ ih =>
    cases k with
    | cons hw hmore => simp only [allPairs, hv _ hw, ih hmore]

theorem grow (h : s.Holds v d) (hg : s.Grows t) : t.Holds v d := by
  induction h with
  | null => exact null
  | bool b => exact bool b
  | int n => exact int n
  | float x => exact float x
  | char c => exact char c
  | string x => exact string x
  | symbol x => exact symbol x
  | pair ha _ _ hcar hcdr =>
    rw [← hg.pairAt_eq ha] at hcar hcdr
    exact pair (Nat.lt_of_lt_of_le ha hg.pairs_le) hcar hcdr
  | vector ha hsize _ ih =>
    rw [← hg.vectorAt_eq ha] at hsize ih
    exact vector (Nat.lt_of_lt_of_le ha hg.vectors_le) hsize ih

theorem equalWithin (hv : s.Holds v d) (hw : s.Holds w d) {n : Nat} (hn : d.cells ≤ n) :
    s.equalWithin (n + 1) v w = some true := by
  induction hv generalizing w n with
  | null | bool _ | int _ | float _ | char _ | symbol _ =>
    cases hw
    simp [Store.equalWithin, Value.eqv]
  | string x =>
    generalize hd : Datum.string x.text = d at hw
    cases hw with
    | string y => simpa [Store.equalWithin] using Datum.string.inj hd
    | _ => cases hd
  | @pair a car cdr _ _ _ ihcar ihcdr =>
    rw [Datum.cells] at hn
    obtain ⟨m, rfl⟩ : ∃ m, n = m + 1 := ⟨n - 1, by omega⟩
    cases hw with
    | pair _ hcar hcdr =>
      rw [Store.equalWithin]
      simp only [ihcar hcar (show car.cells ≤ m by omega), ihcdr hcdr (show cdr.cells ≤ m by omega)]
      split <;> rfl
  | @vector a items _ hsize _ ih =>
    have hpos : 0 < n := Nat.lt_of_lt_of_le (by simp [Datum.cells]) hn
    obtain ⟨m, rfl⟩ : ∃ m, n = m + 1 := ⟨n - 1, by omega⟩
    cases hw with
    | @vector b _ hb hsize' hitems =>
      have hsame : (s.vectorAt a).size = (s.vectorAt b).size := by
        simpa using hsize.trans hsize'.symm
      have heach : List.Forall₂
          (fun v d => ∀ w, s.Holds w d → s.equalWithin (m + 1) v w = some true)
          (s.vectorAt a).toList items :=
        List.forall₂_iff_zip.mpr ⟨hsize, fun {v d} hm w hw => ih v d hm hw
          (Nat.le_of_lt_succ (Nat.lt_of_lt_of_le
            (Datum.cells_lt_of_mem (List.of_mem_zip hm).2) hn))⟩
      rw [Store.equalWithin]
      simp only [hsame, bne_self_eq_false,
        allPairs_of_forall₂ heach (vector hb hsize' hitems).forall₂]
      split <;> rfl

theorem equal? (hv : s.Holds v d) (hw : s.Holds w d) (hroom : d.cells ≤ s.cells) :
    s.equal? v w = some true := by
  have hwalk := s.cells_lt_walkBound
  obtain ⟨n, hn⟩ := s.exists_walkBound
  rw [Store.equal?, hn]
  exact hv.equalWithin hw (by omega)

end Holds

structure Placed (s : Store) (d : Datum) (r : Value × Store) : Prop where
  grows : s.Grows r.2
  holds : r.2.Holds r.1 d
  cells_le : s.cells + d.cells ≤ r.2.cells

theorem placed_of_holds {s : Store} {v : Value} {d : Datum} (h : s.Holds v d) (hd : d.cells = 0) :
    Placed s d (v, s) :=
  ⟨.refl s, h, by rw [hd]; exact Nat.le_refl _⟩

theorem placeAll_placed {items : List Datum}
    (h : ∀ d ∈ items, ∀ s, Placed s d (d.place s)) (s : Store) :
    s.Grows (Datum.placeAll items s).2 ∧
      List.Forall₂ (Datum.placeAll items s).2.Holds (Datum.placeAll items s).1 items ∧
      s.cells + (items.map Datum.cells).sum ≤ (Datum.placeAll items s).2.cells := by
  induction items generalizing s with
  | nil => exact ⟨.refl s, .nil, Nat.le_refl _⟩
  | cons d more ih =>
    have hd := h d (by simp) s
    obtain ⟨hgrows, hholds, hcells⟩ := ih (fun e he => h e (by simp [he])) (d.place s).2
    refine ⟨hd.grows.trans hgrows, .cons (hd.holds.grow hgrows) hholds, ?_⟩
    have := hd.cells_le
    simp only [Datum.placeAll, List.map_cons, List.sum_cons]
    exact Nat.le_trans (by omega) hcells

theorem place_placed (d : Datum) (s : Store) : Placed s d (d.place s) := by
  induction d using Datum.induction generalizing s with
  | null => exact placed_of_holds .null (by rw [Datum.cells])
  | bool b => exact placed_of_holds (.bool b) (by rw [Datum.cells])
  | int n => exact placed_of_holds (.int n) (by rw [Datum.cells])
  | float x => exact placed_of_holds (.float x) (by rw [Datum.cells])
  | char c => exact placed_of_holds (.char c) (by rw [Datum.cells])
  | symbol x => exact placed_of_holds (.symbol x) (by rw [Datum.cells])
  | string text =>
    have hcells : (Datum.string text).cells = 0 := by rw [Datum.cells]
    exact ⟨.of_cells_eq rfl rfl, .string ⟨s.strings, text⟩, Nat.le_of_eq (by rw [hcells]; rfl)⟩
  | pair car cdr hcar hcdr =>
    have h₁ := hcar s
    have h₂ := hcdr (car.place s).2
    rw [Datum.place_pair]
    generalize car.place s = c at h₁ h₂ ⊢
    generalize cdr.place c.2 = r at h₂ ⊢
    have hpush := r.2.grows_push_pair ⟨c.1, r.1⟩
    refine ⟨(h₁.grows.trans h₂.grows).trans hpush, .pair ?_ ?_ ?_, ?_⟩
    · simp [Build.cons_apply]
    · exact r.2.pairAt_push_size _ ▸ (h₁.holds.grow h₂.grows).grow hpush
    · exact r.2.pairAt_push_size _ ▸ h₂.holds.grow hpush
    · have hc := h₁.cells_le
      have hr := h₂.cells_le
      have hcells : r.2.cells + 1 = (Build.cons c.1 r.1 r.2).2.cells := by
        simp [Build.cons_apply, Store.cells, Nat.add_right_comm]
      rw [← hcells, Datum.cells]
      omega
  | vector items ih =>
    obtain ⟨hgrows, hholds, hcells⟩ := placeAll_placed ih s
    have hplace : (Datum.vector items).place s =
        Build.vector (Datum.placeAll items s).1.toArray (Datum.placeAll items s).2 := rfl
    rw [hplace]
    generalize Datum.placeAll items s = r at hgrows hholds hcells ⊢
    have hpush := r.2.grows_push_vector r.1.toArray
    refine ⟨hgrows.trans hpush, .vector ?_ ?_ ?_, ?_⟩
    · simp [Build.vector_apply]
    · exact r.2.vectorAt_push_size _ ▸ hholds.length_eq
    · intro v d hvd
      rw [Build.vector_apply, vectorAt_push_size] at hvd
      exact ((List.forall₂_iff_zip.mp hholds).2 hvd).grow hpush
    · have hsize : r.2.cells + 1 = (Build.vector r.1.toArray r.2).2.cells := by
        simp [Build.vector_apply, Store.cells, Nat.add_assoc]
      rw [← hsize, Datum.cells]
      omega

end Store
end HygienicScheme
