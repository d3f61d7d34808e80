import HygienicScheme.Quasiquote
import Mathlib.Data.List.Perm.Subperm

/-!
# Chains of pairs

A chain is described by what its pairs hold and what its last one leads to, without a bound on its
length. No pair comes twice in a chain that ends, so the pointers that split a list never meet on it
and go far enough to find its end.
-/
namespace HygienicScheme.Store

/-- The value is a chain of pairs with these items that ends in something other than a pair. -/
inductive Chain (s : Store) : Value → List Value → Value → Prop
  | tail {v : Value} (h : ∀ a, v ≠ .pair a) : Chain s v [] v
  | pair {a : Address} {items : List Value} {tail : Value}
      (h : Chain s (s.pairAt a).cdr items tail) :
      Chain s (.pair a) ((s.pairAt a).car :: items) tail

variable {s : Store} {v tail tail' : Value} {items items' : List Value}

theorem eq_of_samePair {v w : Value} (h : samePair v w) : v = w := by
  unfold samePair at h
  split at h
  · rw [beq_iff_eq.mp h]
  · cases h

theorem dropPairs_succ (n : Nat) (v : Value) :
    s.dropPairs (n + 1) v = (s.cdr? (s.dropPairs n v)).getD .null := by
  induction n generalizing v with
  | zero => rfl
  | succ n ih => rw [dropPairs, ih, ← dropPairs]

section Pointers

variable {a b : Address} {n : Nat} {seen : List Value} {slow : Value}

theorem chase_first : s.chase (n + 1) false seen slow (.pair a) =
    s.chase n true ((s.pairAt a).car :: seen) slow (s.pairAt a).cdr := rfl

theorem chase_second : s.chase (n + 1) true seen (.pair b) (.pair a) =
    if samePair (s.pairAt b).cdr (s.pairAt a).cdr then some none
    else s.chase n false ((s.pairAt a).car :: seen) (s.pairAt b).cdr (s.pairAt a).cdr := rfl

end Pointers

namespace Chain

theorem unique (h : s.Chain v items tail) (k : s.Chain v items' tail') :
    items = items' ∧ tail = tail' := by
  induction h generalizing items' with
  | tail h =>
    cases k with
    | tail => exact ⟨rfl, rfl⟩
    | pair => exact absurd rfl (h _)
  | pair _ ih =>
    cases k with
    | tail h => exact absurd rfl (h _)
    | pair k => exact ⟨congrArg _ (ih k).1, (ih k).2⟩

theorem tail_ne_pair (h : s.Chain v items tail) (a : Address) : tail ≠ .pair a := by
  induction h with
  | tail h => exact h a
  | pair _ ih => exact ih

theorem eq_nil (h : s.Chain v items tail) (hv : ∀ a, v ≠ .pair a) : items = [] ∧ tail = v := by
  cases h with
  | tail => exact ⟨rfl, rfl⟩
  | pair => exact absurd rfl (hv _)

theorem pairAt_eq_default {a : Address} (ha : s.pairs.size ≤ a) : s.pairAt a = ⟨.null, .null⟩ := by
  simp [pairAt, Array.getD, Nat.not_lt.mpr ha]

/-- The pairs of the store that the chain goes through. A chain may end outside the store. -/
theorem addresses (h : s.Chain v items tail) :
    ∃ as : List Address, as.Nodup ∧ items.length ≤ as.length + 1 ∧
      ∀ a ∈ as, a < s.pairs.size ∧
        ∃ more, more.length ≤ items.length ∧ s.Chain (.pair a) more tail := by
  induction h with
  | tail h => exact ⟨[], .nil, Nat.zero_le _, by simp⟩
  | @pair a items tail h ih =>
    by_cases ha : a < s.pairs.size
    · obtain ⟨as, hnodup, hlength, has⟩ := ih
      -- The chain from an earlier pair is longer than the chain from any later one.
      have hnew : a ∉ as := by
        intro hmem
        obtain ⟨-, more, hmore, hchain⟩ := has a hmem
        rw [(hchain.unique (pair h)).1, List.length_cons] at hmore
        omega
      refine ⟨a :: as, List.nodup_cons.mpr ⟨hnew, hnodup⟩, by simpa using hlength, ?_⟩
      intro b hb
      rcases List.mem_cons.mp hb with rfl | hb
      · exact ⟨ha, _, Nat.le_refl _, pair h⟩
      · obtain ⟨hlt, more, hmore, hchain⟩ := has b hb
        exact ⟨hlt, more, Nat.le_trans hmore (Nat.le_succ _), hchain⟩
    · rw [pairAt_eq_default (Nat.not_lt.mp ha)] at h
      obtain ⟨rfl, -⟩ := h.eq_nil (by simp)
      exact ⟨[], .nil, Nat.le_refl _, by simp⟩

theorem of_pairs_eq {t : Store} (h : s.Chain v items tail) (hst : t.pairs = s.pairs) :
    t.Chain v items tail := by
  induction h with
  | tail h => exact .tail h
  | @pair a items tail _ ih =>
    have hpair : t.pairAt a = s.pairAt a := by rw [pairAt, pairAt, hst]
    rw [← hpair] at ih ⊢
    exact .pair ih

theorem length_le (h : s.Chain v items tail) : items.length ≤ s.pairs.size + 1 := by
  obtain ⟨as, hnodup, hlength, has⟩ := h.addresses
  have hsub : as ⊆ List.range s.pairs.size := fun a ha => List.mem_range.mpr (has a ha).1
  have hcount := (List.subperm_of_subset hnodup hsub).length_le
  rw [List.length_range] at hcount
  omega

theorem chase_eq {ahead seen : List Value} {slow : Value} {second : Bool} {n : Nat}
    (h : s.Chain v items tail) (hslow : s.Chain slow (ahead ++ items) tail)
    (hahead : second → ahead ≠ []) (hn : items.length ≤ n) :
    s.chase n second seen slow v = some (some (seen.reverse ++ items, tail)) := by
  induction h generalizing n second seen slow ahead with
  | @tail v h =>
    rw [List.append_nil]
    unfold chase
    split
    · exact absurd rfl (h _)
    · exact absurd rfl (h _)
    · rfl
  | @pair a items tail h ih =>
    obtain ⟨n, rfl⟩ := Nat.exists_eq_add_of_le' (Nat.lt_of_lt_of_le (Nat.succ_pos _) hn)
    have hn := Nat.le_of_succ_le_succ hn
    have hseen : seen.reverse ++ (s.pairAt a).car :: items =
        ((s.pairAt a).car :: seen).reverse ++ items := by simp
    rw [hseen]
    cases second with
    | false =>
      have hslow : s.Chain slow ((ahead ++ [(s.pairAt a).car]) ++ items) tail := by
        simpa using hslow
      rw [chase_first]
      exact ih hslow (by simp) hn
    | true =>
      cases ahead with
      | nil => exact absurd rfl (hahead rfl)
      | cons w ahead =>
        rw [List.cons_append] at hslow
        cases hslow with
        | @pair b _ _ hslow =>
          -- The slow pointer is some pairs behind, and on a chain that ends these are other pairs.
          have hbehind : ¬ samePair (s.pairAt b).cdr (s.pairAt a).cdr := by
            intro hsame
            rw [eq_of_samePair hsame] at hslow
            have hlength := congrArg List.length (hslow.unique h).1
            simp only [List.length_append, List.length_cons] at hlength
            omega
          have hslow : s.Chain (s.pairAt b).cdr ((ahead ++ [(s.pairAt a).car]) ++ items) tail := by
            simpa using hslow
          rw [chase_second, if_neg hbehind]
          exact ih hslow nofun hn

end Chain

theorem chain_of_chase {n : Nat} {second : Bool} {seen : List Value} {slow : Value}
    (h : s.chase n second seen slow v = some (some (items, tail))) :
    ∃ more, items = seen.reverse ++ more ∧ s.Chain v more tail := by
  fun_induction chase s n second seen slow v with
  | case1 => cases h
  | case2 => cases h
  | case3 n seen slow a p slow' hmet ih | case4 n second seen slow a p hsecond ih =>
    obtain ⟨more, rfl, hmore⟩ := ih h
    exact ⟨(s.pairAt a).car :: more, by simp [p], .pair hmore⟩
  | case5 n second seen slow v hzero hsucc =>
    obtain ⟨rfl, rfl⟩ := Prod.mk.inj (Option.some.inj (Option.some.inj h))
    refine ⟨[], by simp, .tail fun a ha => ?_⟩
    cases n with
    | zero => exact hzero a rfl ha
    | succ n => exact hsucc n a rfl ha

/-- Splitting a list finds its items and its tail, and fails only where there is no end. -/
theorem splitList?_eq_some : s.splitList? v = some (items, tail) ↔ s.Chain v items tail := by
  constructor
  · intro h
    obtain ⟨more, rfl, hmore⟩ := chain_of_chase (Option.join_eq_some_iff.mp h)
    exact hmore
  · intro h
    have hlength := h.length_le
    have hslow : s.Chain v ([] ++ items) tail := h
    exact Option.join_eq_some_iff.mpr (h.chase_eq hslow nofun (by omega))

theorem properList?_eq_some : s.properList? v = some items ↔ s.Chain v items .null := by
  rw [← splitList?_eq_some, properList?]
  rcases s.splitList? v with _ | ⟨items', tail⟩
  · simp
  · cases tail <;> simp

/-- A proper list with a first item is a pair, and the rest of the list is behind it. -/
theorem properList?_pair {a : Address} {v : Value} {more : List Value} :
    s.properList? (.pair a) = some (v :: more) ↔
      v = (s.pairAt a).car ∧ s.properList? (s.pairAt a).cdr = some more := by
  rw [properList?_eq_some, properList?_eq_some]
  constructor
  · intro h
    cases h with
    | pair h => exact ⟨rfl, h⟩
  · rintro ⟨rfl, h⟩
    exact .pair h

theorem properList?_nil : s.properList? v = some [] ↔ v = .null := by
  rw [properList?_eq_some]
  constructor
  · intro h
    cases h
    rfl
  · rintro rfl
    exact .tail (by simp)

theorem properList?_singleton {w : Value} :
    s.properList? v = some [w] ↔ ∃ b, v = .pair b ∧ s.pairAt b = ⟨w, .null⟩ := by
  constructor
  · intro h
    cases v with
    | pair b =>
      obtain ⟨hcar, hcdr⟩ := properList?_pair.mp h
      exact ⟨b, rfl, by rw [hcar, ← properList?_nil.mp hcdr]⟩
    | _ => cases properList?_eq_some.mp h
  · rintro ⟨b, rfl, hb⟩
    exact properList?_pair.mpr ⟨by rw [hb], by rw [hb]; exact properList?_nil.mpr rfl⟩

theorem quasiForm?_pair {q : QuasiKeyword × Value} (h : s.quasiForm? v = some q) :
    ∃ a, v = .pair a := by
  cases v with
  | pair a => exact ⟨a, rfl⟩
  | _ => cases h

theorem quasiForm?_chain {keyword : QuasiKeyword} {operand : Value}
    (h : s.quasiForm? v = some (keyword, operand)) :
    ∃ a head, v = .pair a ∧ QuasiKeyword.ofSymbol? head = some keyword ∧
      s.Chain v [.symbol head, operand] .null := by
  obtain ⟨a, rfl⟩ := quasiForm?_pair h
  simp only [quasiForm?] at h
  split at h
  · rename_i head operand' hlist
    obtain ⟨k, hk, heq⟩ := Option.map_eq_some_iff.mp h
    obtain ⟨rfl, rfl⟩ := Prod.mk.inj heq
    exact ⟨a, head, rfl, hk, properList?_eq_some.mp hlist⟩
  · cases h

theorem quasiForm?_eq_some {a : Address} {keyword : QuasiKeyword} {operand : Value} :
    s.quasiForm? (.pair a) = some (keyword, operand) ↔ ∃ head b,
      s.pairAt a = ⟨.symbol head, .pair b⟩ ∧ QuasiKeyword.ofSymbol? head = some keyword ∧
        s.pairAt b = ⟨operand, .null⟩ := by
  constructor
  · intro h
    obtain ⟨a', head, heq, hhead, hchain⟩ := quasiForm?_chain h
    cases heq
    obtain ⟨hcar, hcdr⟩ := properList?_pair.mp (properList?_eq_some.mpr hchain)
    obtain ⟨b, hb, hoperand⟩ := properList?_singleton.mp hcdr
    exact ⟨head, b, by rw [hcar, ← hb], hhead, hoperand⟩
  · rintro ⟨head, b, ha, hhead, hb⟩
    have hcdr : s.properList? (s.pairAt a).cdr = some [operand] := by
      rw [ha]
      exact properList?_singleton.mpr ⟨b, rfl, hb⟩
    have hlist : s.properList? (.pair a) = some [.symbol head, operand] :=
      properList?_pair.mpr ⟨by rw [ha], hcdr⟩
    rw [quasiForm?, hlist, Option.map_eq_some_iff]
    exact ⟨keyword, hhead, rfl⟩

end HygienicScheme.Store
