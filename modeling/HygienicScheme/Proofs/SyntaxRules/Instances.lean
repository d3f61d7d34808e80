import HygienicScheme.Proofs.Store.Slots
import HygienicScheme.Proofs.SyntaxRules.Matching
import HygienicScheme.Proofs.SyntaxRules.Shape

/-!
# Instances of patterns

When a form is an instance of a pattern is said here without counting items: every part of the
pattern takes what it can of the form, and a repeated part takes any number of items. What each
variable stands for then is its assignment. The matcher finds an assignment exactly where there is
one, and it is the only one.
-/
namespace HygienicScheme

open SyntaxRules (Depths matchPattern matchItems matchEach gather Subject)

inductive Remainder
  | cells (v : Value)
  | slots (vs : List Value)

def Remainder.Ended : Remainder → Prop
  | .cells v => v = .null
  | .slots vs => vs = []

abbrev Assignment := Symbol → Option Binding

namespace Assignment

def nothing : Assignment := fun _ => none

def single (x : Symbol) (v : Value) : Assignment := fun y => if y = x then some (.one v) else none

def union (σ τ : Assignment) : Assignment := fun x => (σ x).or (τ x)

structure Collects (vars : List Symbol) (ρs : List Assignment) (σ : Assignment) : Prop where
  many : ∀ x ∈ vars, ∃ bs, σ x = some (.many bs) ∧ List.Forall₂ (fun ρ b => ρ x = some b) ρs bs
  none : ∀ x ∉ vars, σ x = none

end Assignment

namespace Store

variable {s : Store}

inductive Takes (s : Store) : Remainder → Value → Remainder → Prop
  | pair {a : Address} : Takes s (.cells (.pair a)) (s.pairAt a).car (.cells (s.pairAt a).cdr)
  | slot {v : Value} {vs : List Value} : Takes s (.slots (v :: vs)) v (.slots vs)

mutual

/-- The value is an instance of the pattern, whose variables stand for parts of it. -/
inductive Instance (s : Store) : Pattern → Value → Assignment → Prop
  | wildcard {v} : Instance s .wildcard v .nothing
  | literal {x y} (h : y.name = x.name) : Instance s (.literal x) (.symbol y) .nothing
  | binder {x v} : Instance s (.variable x) v (.single x v)
  | constant {c v} (h : s.equal? c v = some true) : Instance s (.constant c) v .nothing
  | list {ps v σ} (hv : v = .null ∨ ∃ a, v = .pair a) (h : InstanceItems s ps (.cells v) σ) :
      Instance s (.list ps) v σ
  | vector {ps a σ} (h : InstanceItems s ps (.slots (s.vectorAt a).toList) σ) :
      Instance s (.vector ps) (.vector a) σ

inductive InstanceItems (s : Store) : PatternSeq → Remainder → Assignment → Prop
  | done {m} (h : m.Ended) : InstanceItems s .done m .nothing
  | rest {p v σ} (h : Instance s p v σ) : InstanceItems s (.rest p) (.cells v) σ
  | item {p ps m v m' σ τ} (hm : s.Takes m v m') (h : Instance s p v σ)
      (hmore : InstanceItems s ps m' τ) : InstanceItems s (.item p ps) m (σ.union τ)
  | repeated {p ps m m' ρs σ τ} (h : Repetitions s p m ρs m')
      (hσ : Assignment.Collects p.vars ρs σ) (hmore : InstanceItems s ps m' τ) :
      InstanceItems s (.repeated p ps) m (σ.union τ)

inductive Repetitions (s : Store) : Pattern → Remainder → List Assignment → Remainder → Prop
  | none {p m} : Repetitions s p m [] m
  | more {p m v m' m'' ρ ρs} (hm : s.Takes m v m') (h : Instance s p v ρ)
      (hmore : Repetitions s p m' ρs m'') : Repetitions s p m (ρ :: ρs) m''

end

def Row (s : Store) : Remainder → List Value → Value → Prop
  | .cells v, vs, tail => s.Chain v vs tail
  | .slots ws, vs, tail => ws = vs ∧ tail = .null

section Rows

variable {m m' : Remainder} {v tail : Value} {vs : List Value}

theorem Row.takes (h : s.Row m (v :: vs) tail) : ∃ m', s.Takes m v m' ∧ s.Row m' vs tail := by
  cases m with
  | cells w =>
    cases h with
    | pair h => exact ⟨_, .pair, h⟩
  | slots ws =>
    obtain ⟨rfl, htail⟩ := h
    exact ⟨_, .slot, rfl, htail⟩

def RowThroughout (s : Store) (P : Value → Prop) : Remainder → Prop
  | .cells v => s.Throughout P v
  | .slots vs => ∀ v ∈ vs, s.Throughout P v

theorem Takes.throughout {P : Value → Prop} (h : s.Takes m v m') (hm : s.RowThroughout P m) :
    s.Throughout P v ∧ s.RowThroughout P m' := by
  cases h with
  | pair => exact ⟨hm.slot .car, hm.slot .cdr⟩
  | slot => exact List.forall_mem_cons.mp hm

theorem Takes.row_cons (h : s.Takes m v m') (hrow : s.Row m vs tail) :
    ∃ more, vs = v :: more ∧ s.Row m' more tail := by
  cases h with
  | pair =>
    cases hrow with
    | tail hpair => exact absurd rfl (hpair _)
    | pair hrow => exact ⟨_, rfl, hrow⟩
  | slot =>
    obtain ⟨rfl, htail⟩ := hrow
    exact ⟨_, rfl, rfl, htail⟩

theorem Row.ended (h : s.Row m [] .null) : m.Ended := by
  cases m with
  | cells w =>
    cases h
    rfl
  | slots ws => exact h.1

theorem Row.of_ended (h : s.Row m vs tail) (hm : m.Ended) : vs = [] ∧ tail = .null := by
  cases m with
  | cells w =>
    subst hm
    exact Chain.eq_nil h (by simp)
  | slots ws => exact ⟨h.1.symm.trans hm, h.2⟩

end Rows

end Store

inductive Binding.Uniform : Nat → Binding → Prop
  | one {v} : Uniform 0 (.one v)
  | many {n bs} (h : ∀ b ∈ bs, Uniform n b) : Uniform (n + 1) (.many bs)

def Binds (depths : Depths) (bs : Bindings) : Prop :=
  List.Forall₂ (fun d b => b.1 = d.1 ∧ b.2.Uniform d.2) depths bs

namespace Binds

variable {depths more : Depths} {bs cs : Bindings}

theorem keys (h : Binds depths bs) : bs.map Prod.fst = depths.map Prod.fst := by
  induction h with
  | nil => rfl
  | cons hd _ ih => rw [List.map_cons, List.map_cons, hd.1, ih]

theorem append (h : Binds depths bs) (k : Binds more cs) : Binds (depths ++ more) (bs ++ cs) :=
  List.rel_append h k

theorem lookup (h : Binds depths bs) {x : Symbol} {n : Nat} (hx : depths.lookup x = some n) :
    ∃ b, bs.lookup x = some b ∧ b.Uniform n := by
  induction h with
  | nil => cases hx
  | @cons d b _ _ hd _ ih =>
    obtain ⟨y, b⟩ := b
    obtain ⟨rfl, huniform⟩ := hd
    rw [List.lookup_cons] at hx ⊢
    split at hx <;> rename_i heq
    · cases hx
      exact ⟨b, rfl, huniform⟩
    · exact ih hx

end Binds

namespace SyntaxRules

section Bound

variable {s : Store} {bs : Bindings}

theorem lookup_gather {vars : List Symbol} {rows : List Bindings} {x : Symbol} (hx : x ∈ vars) :
    (gather vars rows).lookup x = some (.many (rows.filterMap (·.lookup x))) :=
  List.lookup_graph _ hx

theorem lookup_gather_none {vars : List Symbol} {rows : List Bindings} {x : Symbol}
    (hx : x ∉ vars) : (gather vars rows).lookup x = none := by
  refine List.lookup_eq_none_iff.mpr fun p hp => ?_
  obtain ⟨y, hy, rfl⟩ := List.mem_map.mp hp
  rw [bne_iff_ne]
  rintro rfl
  exact hx hy

theorem binds_gather {p : Pattern} (hvars : p.vars.Nodup) {rows : List Bindings}
    (h : ∀ row ∈ rows, Binds p.depths row) : Binds (p.depths.deepen 1) (gather p.vars rows) := by
  rw [← p.map_fst_depths] at hvars
  rw [Binds, gather, ← p.map_fst_depths, Depths.deepen, List.map_map, List.forall₂_map_left_iff,
    List.forall₂_map_right_iff, List.forall₂_same]
  intro d hd
  refine ⟨rfl, .many fun b hb => ?_⟩
  obtain ⟨row, hrow, hb⟩ := List.mem_filterMap.mp hb
  obtain ⟨b', hb', huniform⟩ := (h row hrow).lookup (lookup_of_mem hvars hd)
  cases hb'.symm.trans hb
  exact huniform

theorem collects_gather {p : Pattern} {rows : List Bindings}
    (h : ∀ row ∈ rows, Binds p.depths row) :
    Assignment.Collects p.vars (rows.map fun row x => row.lookup x)
      fun x => (gather p.vars rows).lookup x where
  many x hx := by
    refine ⟨_, lookup_gather hx, ?_⟩
    rw [List.forall₂_map_left_iff]
    induction rows with
    | nil => exact .nil
    | cons row more ih =>
      obtain ⟨hrow, hmore⟩ := List.forall_mem_cons.mp h
      have hbound : (row.lookup x).isSome := by
        rw [List.lookup_isSome_iff]
        rw [← p.map_fst_depths, ← hrow.keys] at hx
        obtain ⟨entry, hentry, rfl⟩ := List.mem_map.mp hx
        exact ⟨entry, hentry, beq_self_eq_true _⟩
      obtain ⟨b, hb⟩ := Option.isSome_iff_exists.mp hbound
      rw [List.filterMap_cons_some hb]
      exact .cons hb (ih hmore)
  none x hx := lookup_gather_none hx

theorem eq_gather_of_collects {vars : List Symbol} {rows : List Bindings} {σ : Assignment}
    (h : Assignment.Collects vars (rows.map fun row x => row.lookup x) σ) :
    (fun x => (gather vars rows).lookup x) = σ := by
  funext x
  by_cases hx : x ∈ vars
  · obtain ⟨bs, hσ, hbs⟩ := h.many x hx
    rw [lookup_gather hx, hσ]
    clear hσ h
    rw [List.forall₂_map_left_iff] at hbs
    have heq : rows.filterMap (·.lookup x) = bs := by
      induction hbs with
      | nil => rfl
      | cons hb _ ih => rw [List.filterMap_cons_some hb, ih]
    rw [heq]
  · rw [lookup_gather_none hx, h.none x hx]

end Bound

variable {s : Store}

mutual

theorem matchPattern_binds : ∀ {p : Pattern} {v : Value} {bs : Bindings}, p.vars.Nodup →
    matchPattern s p v = .ok bs → Binds p.depths bs
  | .wildcard, _, _, _, h => by
    cases h
    exact .nil
  | .variable x, _, _, _, h => by
    cases h
    exact .cons ⟨rfl, .one⟩ .nil
  | .literal x, _, _, _, h => by
    rw [matchPattern] at h
    split at h <;> cases h
    exact .nil
  | .constant c, _, _, _, h => by
    rw [matchPattern] at h
    split at h <;> cases h
    exact .nil
  | .list ps, _, _, hvars, h => by
    obtain ⟨-, vs, tail, -, h⟩ := matchPattern_list.mp h
    exact matchItems_binds hvars h
  | .vector ps, _, _, hvars, h => by
    unfold matchPattern at h
    split at h
    · exact matchItems_binds hvars h
    · cases h

theorem matchItems_binds : ∀ {ps : PatternSeq} {subject : Subject} {n : Nat} {vs : List Value}
    {bs : Bindings}, ps.vars.Nodup → matchItems s ps subject n vs = .ok bs → Binds ps.depths bs
  | .done, _, _, _, _, _, h => by
    obtain ⟨-, -, rfl⟩ := matchItems_done.mp h
    exact .nil
  | .rest p, _, _, _, _, hvars, h => by
    rw [matchItems] at h
    exact matchPattern_binds hvars h
  | .item p ps, _, _, _, _, hvars, h => by
    obtain ⟨hp, hps, -⟩ := List.nodup_append.mp hvars
    obtain ⟨-, v, more, b, cs, rfl, hb, hcs, rfl⟩ := matchItems_item.mp h
    exact (matchPattern_binds hp hb).append (matchItems_binds hps hcs)
  | .repeated p ps, _, _, _, _, hvars, h => by
    obtain ⟨hp, hps, -⟩ := List.nodup_append.mp hvars
    obtain ⟨-, -, rows, cs, hrows, hcs, rfl⟩ := matchItems_repeated.mp h
    refine (binds_gather hp fun row hrow => ?_).append (matchItems_binds hps hcs)
    obtain ⟨v, -, hv⟩ := exists_of_mem_right hrows hrow
    exact matchPattern_binds hp hv

end

end SyntaxRules

end HygienicScheme
