import HygienicScheme.Proofs.SyntaxRules.Reading
import Mathlib.Data.List.Nodup

/-!
# The shape of a compiled pattern

The compiler keeps promises that the type of patterns does not make: behind a repetition there are
only single items, a vector has no rest, no variable stands twice, and the number of ellipses over
each variable is on record.
-/
namespace HygienicScheme

open SyntaxRules (Depths Scope PatternOf PatternItemsOf)

def SyntaxRules.Depths.deepen (n : Nat) (depths : Depths) : Depths :=
  depths.map (Prod.map id (· + n))

mutual

def Pattern.depths : Pattern → Depths
  | .variable x => [(x, 0)]
  | .list items | .vector items => items.depths
  | .wildcard | .literal _ | .constant _ => []

def PatternSeq.depths : PatternSeq → Depths
  | .done => []
  | .rest p => p.depths
  | .item p more => p.depths ++ more.depths
  | .repeated p after => Depths.deepen 1 p.depths ++ after.depths

end

def PatternSeq.Fixed : PatternSeq → Prop
  | .done => True
  | .item _ more => more.Fixed
  | .rest _ | .repeated .. => False

def PatternSeq.Closed : PatternSeq → Prop
  | .done => True
  | .rest _ => False
  | .item _ more => more.Closed
  | .repeated _ after => after.Closed

mutual

def Pattern.WellFormed : Pattern → Prop
  | .wildcard | .variable _ | .literal _ => True
  | .constant v => v.isConstant
  | .list items => items.WellFormed
  | .vector items => items.WellFormed ∧ items.Closed

def PatternSeq.WellFormed : PatternSeq → Prop
  | .done => True
  | .rest p => p.WellFormed
  | .item p more => p.WellFormed ∧ more.WellFormed
  | .repeated p after => p.WellFormed ∧ after.WellFormed ∧ after.Fixed

end

namespace SyntaxRules

namespace Depths

variable {m n : Nat} {depths more : Depths}

theorem deepen_zero (depths : Depths) : depths.deepen 0 = depths := by
  have hid : Prod.map (id : Symbol → Symbol) (· + 0) = id := rfl
  rw [deepen, hid, List.map_id]

theorem deepen_append : Depths.deepen n (depths ++ more) = depths.deepen n ++ more.deepen n :=
  List.map_append

theorem deepen_deepen : Depths.deepen n (depths.deepen m) = depths.deepen (m + n) := by
  simp [deepen, Nat.add_assoc]

theorem map_fst_deepen : (Depths.deepen n depths).map Prod.fst = depths.map Prod.fst := by
  simp [deepen]

end Depths

end SyntaxRules

mutual

theorem Pattern.map_fst_depths : ∀ p : Pattern, p.depths.map Prod.fst = p.vars
  | .variable _ => rfl
  | .list items | .vector items => items.map_fst_depths
  | .wildcard | .literal _ | .constant _ => rfl

theorem PatternSeq.map_fst_depths : ∀ ps : PatternSeq, ps.depths.map Prod.fst = ps.vars
  | .done => rfl
  | .rest p => p.map_fst_depths
  | .item p more => by
    rw [PatternSeq.depths, List.map_append, p.map_fst_depths, more.map_fst_depths, PatternSeq.vars]
  | .repeated p after => by
    rw [PatternSeq.depths, List.map_append, Depths.map_fst_deepen, p.map_fst_depths,
      after.map_fst_depths, PatternSeq.vars]

end

namespace SyntaxRules

variable {c : Scope} {seen seen' : Depths} {n : Nat}

structure Adds (n : Nat) (seen own seen' : Depths) : Prop where
  eq : seen' = seen ++ own.deepen n
  nodup : (seen.map Prod.fst).Nodup → (seen'.map Prod.fst).Nodup

theorem Adds.refl (n : Nat) (seen : Depths) : Adds n seen [] seen :=
  ⟨(List.append_nil seen).symm, id⟩

theorem Adds.append {own more seen'' : Depths} (h : Adds n seen own seen')
    (k : Adds n seen' more seen'') : Adds n seen (own ++ more) seen'' where
  eq := by rw [k.eq, h.eq, Depths.deepen_append, List.append_assoc]
  nodup hseen := k.nodup (h.nodup hseen)

theorem Adds.deepen {own : Depths} (h : Adds (n + 1) seen own seen') :
    Adds n seen (own.deepen 1) seen' where
  eq := by rw [h.eq, Depths.deepen_deepen, Nat.add_comm]
  nodup := h.nodup

mutual

theorem PatternOf.adds : ∀ {n v seen p seen'}, PatternOf c n v seen p seen' →
    Adds n seen p.depths seen'
  | _, _, _, _, _, .wildcard _ | _, _, _, _, _, .literal _ | _, _, _, _, _, .null
  | _, _, _, _, _, .constant _ _ => .refl _ _
  | n, _, seen, _, _, .binder hx => by
    refine ⟨by simp [Pattern.depths, Depths.deepen], fun hseen => ?_⟩
    rw [List.map_append]
    exact hseen.append (List.nodup_singleton _) (by simpa using hx)
  | _, _, _, _, _, .list _ h | _, _, _, _, _, .vector h => h.adds

theorem PatternItemsOf.adds : ∀ {n tail repeats items seen ps seen'},
    PatternItemsOf c n tail repeats items seen ps seen' → Adds n seen ps.depths seen'
  | _, _, _, _, _, _, _, .done => .refl _ _
  | _, _, _, _, _, _, _, .rest _ h => h.adds
  | _, _, _, _, _, _, _, .item _ _ h hmore => h.adds.append hmore.adds
  | _, _, _, _, _, _, _, .repeated _ _ h hmore => h.adds.deepen.append hmore.adds

end

theorem PatternItemsOf.fixed : ∀ {n tail items seen ps seen'},
    PatternItemsOf c n tail true items seen ps seen' → ps.Fixed
  | _, _, _, _, _, _, .done => trivial
  | _, _, _, _, _, _, .item _ _ _ hmore => hmore.fixed

theorem PatternItemsOf.closed : ∀ {n repeats items seen ps seen'},
    PatternItemsOf c n .null repeats items seen ps seen' → ps.Closed
  | _, _, _, _, _, _, .done => trivial
  | _, _, _, _, _, _, .rest hnull _ => absurd rfl hnull
  | _, _, _, _, _, _, .item _ _ _ hmore | _, _, _, _, _, _, .repeated _ _ _ hmore => hmore.closed

mutual

theorem PatternOf.wellFormed : ∀ {n v seen p seen'}, PatternOf c n v seen p seen' → p.WellFormed
  | _, _, _, _, _, .wildcard _ | _, _, _, _, _, .literal _ | _, _, _, _, _, .binder _
  | _, _, _, _, _, .null => trivial
  | _, _, _, _, _, .constant hv _ => hv
  | _, _, _, _, _, .list _ h => h.wellFormed
  | _, _, _, _, _, .vector h => ⟨h.wellFormed, h.closed⟩

theorem PatternItemsOf.wellFormed : ∀ {n tail repeats items seen ps seen'},
    PatternItemsOf c n tail repeats items seen ps seen' → ps.WellFormed
  | _, _, _, _, _, _, _, .done => trivial
  | _, _, _, _, _, _, _, .rest _ h => h.wellFormed
  | _, _, _, _, _, _, _, .item _ _ h hmore => ⟨h.wellFormed, hmore.wellFormed⟩
  | _, _, _, _, _, _, _, .repeated _ _ h hmore => ⟨h.wellFormed, hmore.wellFormed, hmore.fixed⟩

end

/-- The pattern of a compiled rule is well-formed, no variable stands in it twice, and the rule has
its variables on record. -/
theorem rule_shape {number : Nat} {v : Value} {r : Rule} (h : rule c number v = .ok r) :
    r.pattern.WellFormed ∧ r.pattern.vars.Nodup ∧ r.depths = r.pattern.depths := by
  obtain ⟨p, t, -, hpattern, -⟩ := ruleOf h
  obtain ⟨a, head, items, tail, ps, -, -, heq, hps⟩ := rulePatternOf hpattern
  dsimp only at heq hps
  have hdepths : r.depths = ps.depths := by
    rw [hps.adds.eq, List.nil_append, Depths.deepen_zero]
  have hnodup := hps.adds.nodup List.nodup_nil
  rw [hdepths, ps.map_fst_depths] at hnodup
  rw [heq]
  exact ⟨⟨trivial, hps.wellFormed⟩, hnodup, hdepths⟩

end SyntaxRules
end HygienicScheme
