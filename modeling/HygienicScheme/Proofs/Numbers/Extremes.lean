import HygienicScheme.Proofs.Numbers.Doubles
import HygienicScheme.Proofs.Numbers.Fitting
import Mathlib.Data.List.MinMax

/-!
# The greatest and the least integer

`max` and `min` compare their arguments as doubles and keep the earlier of two that are equal so.
What they pick is therefore the first integer whose nearest double is extreme. That is an extreme
integer itself unless another one with the same nearest double lies beyond it, which takes integers
above 2 ^ 53.
-/
namespace HygienicScheme

namespace Number

open Decimal (nearest)

section Picking

variable {β : Type} [LinearOrder β] {f : Int64 → β} {keeps : Float → Float → Bool}
  (hkeeps : ∀ a b : Int64, keeps (int a).toFloat (int b).toFloat = decide (f b ≤ f a))

include hkeeps

theorem pick_ints (a b : Int64) :
    pick keeps (int a) (int b) = int (if f a < f b then b else a) := by
  rw [pick, hkeeps]
  by_cases h : f a < f b
  · rw [if_pos h, if_neg (by simpa using h)]
  · rw [if_neg h, if_pos (by simpa using h)]

theorem foldl_pick (a : Int64) (ns : List Int64) : ∃ m, (a :: ns).argmax f = some m ∧
    (ns.map int).foldl (pick keeps) (int a) = int m := by
  change ∃ m, ns.foldl (List.argAux fun b c => f c < f b) (some a) = some m ∧ _
  induction ns generalizing a with
  | nil => exact ⟨a, rfl, rfl⟩
  | cons b more ih =>
    obtain ⟨m, hmax, hfold⟩ := ih (if f a < f b then b else a)
    refine ⟨m, ?_, ?_⟩
    · rw [List.foldl_cons, ← hmax]
      congr 1
      exact (apply_ite some _ _ _).symm
    · rw [List.map_cons, List.foldl_cons, pick_ints hkeeps, hfold]

theorem extremum_ints (a : Int64) (ns : List Int64) : ∃ m, (a :: ns).argmax f = some m ∧
    extremum keeps (int a) (ns.map int) = int m := by
  obtain ⟨m, hmax, hfold⟩ := foldl_pick hkeeps a ns
  have hexact : (int a :: ns.map int).any isFloat = false := by
    rw [← List.map_cons, List.any_map]
    exact List.any_eq_false.mpr fun n _ => Bool.false_ne_true
  exact ⟨m, hmax, by rw [extremum, hexact, hfold]; rfl⟩

end Picking

theorem toFloat_le_iff (a b : Int64) :
    (int a).toFloat ≤ (int b).toFloat ↔ nearest a.toInt ≤ nearest b.toInt := by
  have hfits : ∀ n : Int64, n.toInt.natAbs < 2 ^ 64 := fun n => by
    have hn := fits_iff.mp (fits_toInt n)
    omega
  exact Decimal.ofInt_le_ofInt_iff (hfits a) (hfits b)

theorem mapM_ints (procedure : String) (ns : List Int64) :
    (ns.map Value.int).mapM (ofValue procedure) = pure (ns.map int) := by
  induction ns with
  | nil => rfl
  | cons n more ih =>
    rw [List.map_cons, List.mapM_cons, ih]
    rfl

end Number

namespace Routine

open Decimal (nearest)

/-- Which of these integers the call picks, for the order in which the picked one comes last. -/
structure Picks (op : Numeric) (precedes : Int → Int → Prop) (ns : List Int64) (s : Store)
    (m : Int64) : Prop where
  returns : Returns (.numeric op) (ns.map .int) s (.int m) s
  mem : m ∈ ns
  double : ∀ n ∈ ns, precedes (nearest n.toInt) (nearest m.toInt)
  first : ∀ n ∈ ns, nearest n.toInt = nearest m.toInt → ns.idxOf m ≤ ns.idxOf n
  /-- Only an integer with the same nearest double may lie beyond the picked one. -/
  extreme_iff : (∀ n ∈ ns, precedes n.toInt m.toInt) ↔
    ∀ n ∈ ns, nearest n.toInt = nearest m.toInt → precedes n.toInt m.toInt
  small : (∀ n ∈ ns, n.toInt.natAbs ≤ 2 ^ 53) → ∀ n ∈ ns, precedes n.toInt m.toInt

section Orders

variable {β : Type} [LinearOrder β] {op : Numeric} {a : Int64} {ns : List Int64} {s : Store}
  (place : Int → β) (keeps : Float → Float → Bool)

theorem calculates_extremum (hcount : op.arity.accepts (ns.length + 1))
    (hrun : ∀ v more, op.run (v :: more) = Numeric.extremum op.name keeps v more) :
    Calculates op (.int a :: ns.map .int)
      (.ok (Number.extremum keeps (.int a) (ns.map .int))) where
  count := by simpa using hcount
  run := by
    rw [hrun, Numeric.extremum, Number.mapM_ints]
    rfl

theorem picks_of_places (hcount : op.arity.accepts (ns.length + 1))
    (hrun : ∀ v more, op.run (v :: more) = Numeric.extremum op.name keeps v more)
    (hkeeps : ∀ a b : Int64, keeps (Number.int a).toFloat (Number.int b).toFloat =
      decide (place (nearest b.toInt) ≤ place (nearest a.toInt)))
    (hplace : Function.Injective place)
    (hnearest : ∀ i j, place i ≤ place j → place (nearest i) ≤ place (nearest j)) :
    ∃ m, Picks op (fun i j => place i ≤ place j) (a :: ns) s m := by
  obtain ⟨m, hmax, hextremum⟩ := Number.extremum_ints hkeeps a ns
  have hdouble : ∀ n ∈ a :: ns, place (nearest n.toInt) ≤ place (nearest m.toInt) :=
    fun n hn => List.le_of_mem_argmax (f := fun k : Int64 => place (nearest k.toInt)) hn hmax
  have hbeyond : ∀ n ∈ a :: ns, nearest n.toInt ≠ nearest m.toInt →
      place n.toInt ≤ place m.toInt := by
    intro n hn hne
    by_contra hlt
    have hle := hnearest _ _ (le_of_not_ge hlt)
    exact hne (hplace (le_antisymm (hdouble n hn) hle))
  have hextreme : (∀ n ∈ a :: ns, place n.toInt ≤ place m.toInt) ↔
      ∀ n ∈ a :: ns, nearest n.toInt = nearest m.toInt → place n.toInt ≤ place m.toInt := by
    refine ⟨fun h n hn _ => h n hn, fun h n hn => ?_⟩
    by_cases heq : nearest n.toInt = nearest m.toInt
    · exact h n hn heq
    · exact hbeyond n hn heq
  refine ⟨m, ?_, List.argmax_mem hmax, hdouble, ?_, hextreme, ?_⟩
  · exact (calculates_extremum keeps hcount hrun).int (by rw [hextremum])
  · exact fun n hn heq => List.index_of_argmax hmax hn (congrArg place heq).ge
  · intro hsmall
    refine hextreme.mpr fun n hn heq => ?_
    have hm := List.argmax_mem hmax
    rw [Decimal.nearest_of_small (hsmall n hn), Decimal.nearest_of_small (hsmall m hm)] at heq
    rw [heq]

end Orders

theorem picks_extremes (ns : List Int64) (s : Store) (h : ns ≠ []) :
    (∃ m, Picks .max (· ≤ ·) ns s m) ∧ ∃ m, Picks .min (· ≥ ·) ns s m := by
  obtain ⟨a, more, rfl⟩ := List.exists_cons_of_ne_nil h
  constructor
  · refine picks_of_places id (fun x y => x ≥ y) ?_ (fun _ _ => rfl)
      (fun a b => decide_eq_decide.mpr (Number.toFloat_le_iff b a)) Function.injective_id
      (fun i j => Decimal.nearest_mono)
    simp [Numeric.arity, Arity.accepts]
  · refine picks_of_places OrderDual.toDual (fun x y => x ≤ y) ?_
      (fun _ _ => rfl) (fun a b => decide_eq_decide.mpr (Number.toFloat_le_iff a b))
      OrderDual.toDual.injective (fun i j => Decimal.nearest_mono)
    simp [Numeric.arity, Arity.accepts]

/-- Of two integers with one nearest double the earlier is picked, be it the lesser. -/
theorem picks_extremes_close : [9007199254740992, 9007199254740993] ≠ ([] : List Int64) ∧
    Returns (.numeric .max) [.int 9007199254740992, .int 9007199254740993] .empty
      (.int 9007199254740992) .empty := by
  refine ⟨List.cons_ne_nil _ _, ?_⟩
  obtain ⟨m, hm⟩ := (picks_extremes [9007199254740992, 9007199254740993] .empty
    (List.cons_ne_nil _ _)).1
  obtain rfl | hsecond := List.mem_cons.mp hm.mem
  · exact hm.returns
  · obtain rfl := List.mem_singleton.mp hsecond
    exact absurd (hm.first 9007199254740992 (by simp) (by decide)) (by decide)

end Routine

end HygienicScheme
