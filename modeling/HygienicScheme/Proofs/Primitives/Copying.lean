import HygienicScheme.Proofs.Primitives.Outcomes
import HygienicScheme.Proofs.Store.Copies

/-!
# Lists that are copied

`reverse` and `append` put the items of the lists they are given into new pairs, and only the last
argument of `append` is shared: it becomes the tail of the result as it is. The new pairs lie behind
all others, so what is assigned to a pair that was there before does not reach them.
-/
namespace HygienicScheme

namespace Store

variable {s t : Store} {v w tail : Value} {items : List Value} {first : Address}

theorem Spine.equal? (hv : s.Spine v items .null) (hw : s.Spine w items .null) :
    s.equal? v w = some true := by
  have hcopies : s.Copies (0 + items.length) v w :=
    .spine hv hw (List.forall₂_same.mpr fun x _ => .refl x) (.refl .null)
  have hlength := (hv.chain nofun).length_le
  have hbound := s.cells_lt_walkBound
  rw [cells] at hbound
  exact equalWithin_mono (hcopies s (.refl s)) (by omega)

/-- A list in new pairs is another object than a list that was there, unless both are empty. -/
theorem SpineFrom.eqv_old (hw : t.SpineFrom first w items .null) (hv : s.Spine v items .null)
    (hfirst : s.pairs.size ≤ first) : w.eqv v = v.isNull := by
  cases hv with
  | nil =>
    cases hw
    rfl
  | @cons a _ _ ha _ =>
    generalize hitems : (s.pairAt a).car :: _ = items at hw
    cases hw with
    | nil => cases hitems
    | @cons b _ _ hb _ _ =>
      have hne : b ≠ a := Nat.ne_of_gt (Nat.lt_of_lt_of_le ha (Nat.le_trans hfirst hb))
      simpa [Value.eqv, Value.isNull] using hne

end Store

namespace Listing

variable {s t : Store} {v w tail last : Value} {vs items : List Value} {lists : List (List Value)}
  {first : Address}

theorem proper_of_appendItems (h : appendItems vs s = .ok items t) : ∀ v ∈ vs, s.Proper v := by
  induction vs generalizing items t with
  | nil => simp
  | cons v more ih =>
    rw [appendItems] at h
    by_cases hv : s.Proper v
    · obtain ⟨front, hfront⟩ := hv
      rw [Action.bind_ok (Argument.list_proper hfront)] at h
      cases hmore : appendItems more s with
      | ok rest u => exact List.forall_mem_cons.mpr ⟨⟨front, hfront⟩, ih hmore⟩
      | error e u =>
        rw [Action.bind_error hmore] at h
        cases h
    · rw [Action.bind_error (Argument.list_improper hv)] at h
      cases h

inductive Alters (bound : Address) : Store → Store → Prop
  | grow {s t : Store} (h : s.Grows t) : Alters bound s t
  | assign {s t : Store} {op : Listing} {a : Address} {v : Value}
      (hop : op = .setCar ∨ op = .setCdr) (ha : a < bound)
      (hrun : op.run [.pair a, v] s = .ok .unspecified t) : Alters bound s t

theorem exists_modify {op : Listing} {a : Address} (hop : op = .setCar ∨ op = .setCdr)
    (hrun : op.run [.pair a, v] s = .ok .unspecified t) :
    ∃ change, t = { s with pairs := s.pairs.modify a change } := by
  obtain rfl | rfl := hop
  · exact ⟨_, (EStateM.Result.ok.inj hrun).2.symm⟩
  · exact ⟨_, (EStateM.Result.ok.inj hrun).2.symm⟩

theorem spineFrom_alters (h : s.SpineFrom first v items tail) (ht : Alters first s t) :
    t.SpineFrom first v items tail := by
  cases ht with
  | grow hg => exact h.grow hg
  | assign hop ha hrun =>
    obtain ⟨change, rfl⟩ := exists_modify hop hrun
    refine h.of_pairs (by simp) fun b hb _ => ?_
    rw [Store.pairAt_modify, if_neg fun h => Nat.ne_of_lt (Nat.lt_of_lt_of_le ha hb) h.1]

theorem spineFrom_altered (h : s.SpineFrom first v items tail)
    (ht : Relation.ReflTransGen (Alters first) s t) : t.SpineFrom first v items tail := by
  induction ht with
  | refl => exact h
  | tail _ hlast ih => exact spineFrom_alters ih hlast

open Routine (Returns answers_listing answers_run)

theorem answers_reverse (v : Value) (s : Store) :
    (Routine.listing .reverse).Answers [v] s (run .reverse [v] s) := answers_listing rfl rfl

theorem answers_append (args : List Value) (s : Store) :
    (Routine.listing .append).Answers args s (run .append args s) := answers_listing rfl rfl

theorem returns_reverse (h : s.Chain v items .null) :
    ∃ w t, Returns (.listing .reverse) [v] s w t ∧ s.MakesSpine items.reverse .null w t := by
  refine ⟨_, _, ?_, Build.listWithTail_makes items.reverse .null s⟩
  have hanswer := answers_reverse v s
  rwa [run_reverse h] at hanswer

theorem returns_append (last : Value)
    (h : List.Forall₂ (fun v items => s.Chain v items .null) vs lists) :
    ∃ w t, Returns (.listing .append) (vs ++ [last]) s w t ∧
      s.MakesSpine lists.flatten last w t := by
  refine ⟨_, _, ?_, Build.listWithTail_makes lists.flatten last s⟩
  have hanswer := answers_append (vs ++ [last]) s
  rwa [run_append_chains last h] at hanswer

theorem returns_append_two (last : Value) (h : s.Chain v items .null) :
    ∃ w t, Returns (.listing .append) [v, last] s w t ∧ s.MakesSpine items last w t := by
  obtain ⟨w, t, hw, hmakes⟩ := returns_append last (.cons h .nil)
  rw [List.flatten_singleton] at hmakes
  exact ⟨w, t, hw, hmakes⟩

theorem proper_of_returns_reverse (h : Returns (.listing .reverse) [v] s w t) : s.Proper v := by
  have hanswer := answers_reverse v s
  by_contra hv
  rw [run_reverse_improper hv] at hanswer
  cases hanswer.unique h

theorem proper_of_returns_append (h : Returns (.listing .append) (vs ++ [last]) s w t) :
    ∀ v ∈ vs, s.Proper v := by
  have hanswer := answers_append (vs ++ [last]) s
  rw [run_append] at hanswer
  cases hitems : appendItems vs s with
  | ok items u => exact proper_of_appendItems hitems
  | error e u =>
    rw [Action.bind_error hitems] at hanswer
    cases hanswer.unique h

theorem returns_equal (h : s.equal? v w = some true) :
    Returns (.predicate .equal) [v, w] s (.bool true) s := by
  have hanswer : (Routine.predicate .equal).Answers [v, w] s
      ((Action.ended (s.equal? v w) >>= fun b => pure (Value.bool b)) s) :=
    answers_run rfl nofun rfl
  rwa [h] at hanswer

theorem returns_eq (v w : Value) (s : Store) :
    Returns (.predicate .eq) [v, w] s (.bool (v.eqv w)) s :=
  answers_run rfl nofun rfl

/-- Which lists are copied, and what the copies share with them. -/
structure CopiesLists (s : Store) : Prop where
  reverse_iff : ∀ v, (∃ w t, Returns (.listing .reverse) [v] s w t) ↔ s.Proper v
  reverse : ∀ v items, s.Chain v items .null →
    ∃ w t, Returns (.listing .reverse) [v] s w t ∧ s.MakesSpine items.reverse .null w t
  twice : ∀ v items, s.Spine v items .null → ∃ w t x u,
    Returns (.listing .reverse) [v] s w t ∧ Returns (.listing .reverse) [w] t x u ∧
    Returns (.predicate .equal) [x, v] u (.bool true) u ∧
    Returns (.predicate .eq) [x, v] u (.bool v.isNull) u
  append_iff : ∀ vs last,
    (∃ w t, Returns (.listing .append) (vs ++ [last]) s w t) ↔ ∀ v ∈ vs, s.Proper v
  append : ∀ vs lists last, List.Forall₂ (fun v items => s.Chain v items .null) vs lists →
    ∃ w t, Returns (.listing .append) (vs ++ [last]) s w t ∧ s.MakesSpine lists.flatten last w t ∧
      ∀ u, Relation.ReflTransGen (Alters s.pairs.size) t u →
        u.SpineFrom s.pairs.size w lists.flatten last
  /-- The reverse of two lists in a row is the second list reversed before the first. -/
  reverse_append : ∀ v items w more, s.Spine v items .null → s.Spine w more .null →
    ∃ both s₁ whole s₂ back s₃ front s₄ parts s₅,
      Returns (.listing .append) [v, w] s both s₁ ∧
      Returns (.listing .reverse) [both] s₁ whole s₂ ∧
      Returns (.listing .reverse) [w] s₂ back s₃ ∧
      Returns (.listing .reverse) [v] s₃ front s₄ ∧
      Returns (.listing .append) [back, front] s₄ parts s₅ ∧
      Returns (.predicate .equal) [whole, parts] s₅ (.bool true) s₅

/-- Lists are copied so in every store. -/
theorem copies_lists (s : Store) : CopiesLists s where
  reverse_iff v := by
    refine ⟨fun ⟨_, _, h⟩ => proper_of_returns_reverse h, fun ⟨items, h⟩ => ?_⟩
    obtain ⟨w, t, hw, -⟩ := returns_reverse h
    exact ⟨w, t, hw⟩
  reverse _ _ := returns_reverse
  twice v items h := by
    obtain ⟨w, t, hw, hmakes⟩ := returns_reverse (h.chain nofun)
    obtain ⟨x, u, hx, hmakes'⟩ := returns_reverse (hmakes.spine.spine.chain nofun)
    have hspine := hmakes'.spine
    rw [List.reverse_reverse] at hspine
    have hold := (h.grow hmakes.grows).grow hmakes'.grows
    refine ⟨w, t, x, u, hw, hx, returns_equal (hspine.spine.equal? hold), ?_⟩
    rw [← hspine.eqv_old h hmakes.grows.pairs_le]
    exact returns_eq x v u
  append_iff vs last := by
    refine ⟨fun ⟨_, _, h⟩ => proper_of_returns_append h, fun h => ?_⟩
    obtain ⟨lists, hlists⟩ := exists_chains h
    obtain ⟨w, t, hw, -⟩ := returns_append last hlists
    exact ⟨w, t, hw⟩
  append vs lists last h := by
    obtain ⟨w, t, hw, hmakes⟩ := returns_append last h
    exact ⟨w, t, hw, hmakes, fun u => spineFrom_altered hmakes.spine⟩
  reverse_append v items w more hv hw := by
    obtain ⟨both, s₁, hboth, h₁⟩ := returns_append_two w (hv.chain nofun)
    have hboth₁ := h₁.spine.spine.append (hw.grow h₁.grows)
    obtain ⟨whole, s₂, hwhole, h₂⟩ := returns_reverse (hboth₁.chain nofun)
    have hg₂ := h₁.grows.trans h₂.grows
    obtain ⟨back, s₃, hback, h₃⟩ := returns_reverse ((hw.grow hg₂).chain nofun)
    have hg₃ := hg₂.trans h₃.grows
    obtain ⟨front, s₄, hfront, h₄⟩ := returns_reverse ((hv.grow hg₃).chain nofun)
    have hback₄ := h₃.spine.spine.grow h₄.grows
    obtain ⟨parts, s₅, hparts, h₅⟩ := returns_append_two front (hback₄.chain nofun)
    -- Both sides are told in the last store, which keeps all lists that were made before.
    have hwhole₅ := h₂.spine.spine.grow ((h₃.grows.trans h₄.grows).trans h₅.grows)
    have hparts₅ := h₅.spine.spine.append (h₄.spine.spine.grow h₅.grows)
    rw [List.reverse_append] at hwhole₅
    exact ⟨both, s₁, whole, s₂, back, s₃, front, s₄, parts, s₅, hboth, hwhole, hback, hfront,
      hparts, returns_equal (hwhole₅.equal? hparts₅)⟩

end Listing

end HygienicScheme
