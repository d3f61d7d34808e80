import HygienicScheme.Proofs.Expansion.Equations
import HygienicScheme.Proofs.SyntaxRules.Instances

/-!
# Matching decides instances

The matcher counts the items of a list and tells from the shape of the pattern how many of them a
repeated part takes. Where the patterns are well-formed and no list is circular it finds the one
assignment that makes the form an instance, so a use is replaced by the first rule of which it is
one.
-/
namespace HygienicScheme

open SyntaxRules

def Bindings.assignment (bs : Bindings) : Assignment := fun x => bs.lookup x

namespace Bindings

theorem assignment_append (bs cs : Bindings) :
    assignment (bs ++ cs) = bs.assignment.union cs.assignment :=
  funext fun _ => List.lookup_append

theorem assignment_single (x : Symbol) (v : Value) : assignment [(x, .one v)] = .single x v := by
  funext y
  by_cases hy : y = x
  · simp [assignment, Assignment.single, hy]
  · simp [assignment, Assignment.single, hy, List.lookup_cons, beq_eq_false_iff_ne.mpr hy]

end Bindings

namespace Store

variable {s : Store} {m m' : Remainder} {v tail whole : Value} {vs : List Value} {n : Nat}
  {p : Pattern} {ps : PatternSeq} {σ : Assignment}

theorem Takes.dropPairs (h : s.Takes m v m') (hm : m = .cells (s.dropPairs n whole)) :
    m' = .cells (s.dropPairs (n + 1) whole) := by
  cases h with
  | pair =>
    have hv := Remainder.cells.inj hm
    rw [dropPairs_succ, ← hv]
    rfl
  | slot => cases hm

theorem InstanceItems.leading_le : ∀ {ps : PatternSeq} {m : Remainder} {σ : Assignment}
    {vs : List Value}, s.InstanceItems ps m σ → s.Row m vs tail → ps.leading.length ≤ vs.length
  | .done, _, _, _, _, _ | .rest _, _, _, _, _, _ | .repeated .., _, _, _, _, _ => Nat.zero_le _
  | .item p ps, _, _, _, h, hrow => by
    cases h with
    | item hm _ hmore =>
      obtain ⟨more, rfl, hmorerow⟩ := hm.row_cons hrow
      exact Nat.succ_le_succ (hmore.leading_le hmorerow)

theorem InstanceItems.of_fixed : ∀ {ps : PatternSeq} {m : Remainder} {σ : Assignment}
    {vs : List Value}, s.InstanceItems ps m σ → ps.Fixed → s.Row m vs tail →
    vs.length = ps.leading.length ∧ tail = .null
  | .done, _, _, _, h, _, hrow => by
    cases h with
    | done hm =>
      obtain ⟨rfl, htail⟩ := hrow.of_ended hm
      exact ⟨rfl, htail⟩
  | .item p ps, _, _, _, h, hfixed, hrow => by
    cases h with
    | item hm _ hmore =>
      obtain ⟨more, rfl, hmorerow⟩ := hm.row_cons hrow
      obtain ⟨hlength, htail⟩ := hmore.of_fixed hfixed hmorerow
      exact ⟨congrArg (· + 1) hlength, htail⟩

theorem repetitions_of_match {taken rest : List Value} {rows : List Bindings}
    (hmatch : ∀ {v bs}, matchPattern s p v = .ok bs → s.Instance p v bs.assignment)
    (h : List.Forall₂ (fun v row => matchPattern s p v = .ok row) taken rows)
    (hrow : s.Row m (taken ++ rest) tail) :
    ∃ m', s.Repetitions p m (rows.map Bindings.assignment) m' ∧ s.Row m' rest tail := by
  induction h generalizing m with
  | nil => exact ⟨m, .none, hrow⟩
  | cons hv _ ih =>
    obtain ⟨m', hm, hrow⟩ := hrow.takes
    obtain ⟨m'', hmore, hrest⟩ := ih hrow
    exact ⟨m'', .more hm (hmatch hv) hmore, hrest⟩

theorem Repetitions.match {ρs : List Assignment}
    (hmatch : ∀ {v ρ}, s.Instance p v ρ → s.Straight v →
      ∃ bs, matchPattern s p v = .ok bs ∧ bs.assignment = ρ)
    (h : s.Repetitions p m ρs m') (hm : s.RowThroughout s.Ends m) (hrow : s.Row m vs tail) :
    s.RowThroughout s.Ends m' ∧ ∃ taken rest rows, vs = taken ++ rest ∧ s.Row m' rest tail ∧
      List.Forall₂ (fun v row => matchPattern s p v = .ok row) taken rows ∧
      rows.map Bindings.assignment = ρs := by
  induction ρs generalizing m vs with
  | nil =>
    cases h
    exact ⟨hm, [], vs, [], rfl, hrow, .nil, rfl⟩
  | cons ρ ρs ih =>
    cases h with
    | more htakes hv hmore =>
      obtain ⟨more, rfl, hrow'⟩ := htakes.row_cons hrow
      obtain ⟨hstraight, hm'⟩ := htakes.throughout hm
      obtain ⟨first, hfirst, rfl⟩ := hmatch hv hstraight
      obtain ⟨hm'', taken, rest, rows, rfl, hrest, hrows, rfl⟩ := ih hmore hm' hrow'
      exact ⟨hm'', _ :: taken, rest, first :: rows, rfl, hrest, .cons hfirst hrows, rfl⟩

end Store

theorem PatternSeq.closed_of_fixed : ∀ ps : PatternSeq, ps.Fixed → ps.Closed
  | .done, _ => trivial
  | .item _ more, h => more.closed_of_fixed h

namespace SyntaxRules

variable {s : Store} {v : Value} {bs : Bindings} {σ : Assignment}

mutual

theorem instance_of_match : ∀ {p : Pattern} {v : Value} {bs : Bindings}, p.WellFormed →
    p.vars.Nodup → matchPattern s p v = .ok bs → s.Instance p v bs.assignment
  | .wildcard, _, _, _, _, h => by
    cases h
    exact .wildcard
  | .variable x, v, _, _, _, h => by
    cases h
    rw [Bindings.assignment_single]
    exact .binder
  | .literal x, v, _, _, _, h => by
    rw [matchPattern] at h
    split_ifs at h with hv
    cases h
    cases v with
    | symbol y => exact .literal (beq_iff_eq.mp hv)
    | _ => cases hv
  | .constant c, _, _, _, _, h => by
    rw [matchPattern] at h
    split_ifs at h with hv
    cases h
    exact .constant hv
  | .list ps, v, _, hp, hvars, h => by
    obtain ⟨hv, vs, tail, hchain, h⟩ := matchPattern_list.mp h
    have hrow : s.Row (.cells v) vs (Subject.mk vs.length tail v).tail := hchain
    exact .list hv (instanceItems_of_match hp hvars hrow (.inr rfl) (Nat.zero_add _).symm h)
  | .vector ps, v, _, hp, hvars, h => by
    unfold matchPattern at h
    split at h
    · exact .vector (instanceItems_of_match hp.1 hvars ⟨rfl, rfl⟩ (.inl hp.2)
        (Nat.zero_add _).symm h)
    · cases h

theorem instanceItems_of_match : ∀ {ps : PatternSeq} {subject : Subject} {n : Nat}
    {vs : List Value} {m : Remainder} {bs : Bindings}, ps.WellFormed → ps.vars.Nodup →
    s.Row m vs subject.tail → ps.Closed ∨ m = .cells (s.dropPairs n subject.whole) →
    subject.count = n + vs.length → matchItems s ps subject n vs = .ok bs →
    s.InstanceItems ps m bs.assignment
  | .done, _, _, vs, _, _, _, _, hrow, _, hcount, h => by
    obtain ⟨hn, htail, rfl⟩ := matchItems_done.mp h
    obtain rfl : vs = [] := List.eq_nil_of_length_eq_zero (by omega)
    rw [htail] at hrow
    exact .done hrow.ended
  | .rest p, _, _, _, _, _, hp, hvars, _, hm, _, h => by
    rcases hm with hclosed | rfl
    · exact hclosed.elim
    · rw [matchItems] at h
      exact .rest (instance_of_match hp hvars h)
  | .item p ps, _, _, _, _, _, hp, hvars, hrow, hm, hcount, h => by
    obtain ⟨hpvars, hpsvars, -⟩ := List.nodup_append.mp hvars
    obtain ⟨-, v, more, b, cs, rfl, hb, hcs, rfl⟩ := matchItems_item.mp h
    obtain ⟨m', htakes, hmore⟩ := hrow.takes
    rw [Bindings.assignment_append]
    exact .item htakes (instance_of_match hp.1 hpvars hb)
      (instanceItems_of_match hp.2 hpsvars hmore (hm.imp id htakes.dropPairs)
        (by rw [hcount, List.length_cons]; omega) hcs)
  | .repeated p ps, subject, n, vs, _, _, hp, hvars, hrow, hm, hcount, h => by
    obtain ⟨hpvars, hpsvars, -⟩ := List.nodup_append.mp hvars
    obtain ⟨htail, hleast, rows, cs, hrows, hcs, rfl⟩ := matchItems_repeated.mp h
    generalize htaken : subject.count - (n + ps.leading.length) = taken at hrows hcs
    rw [← List.take_append_drop taken vs] at hrow
    obtain ⟨m', hrepetitions, hrest⟩ :=
      Store.repetitions_of_match (instance_of_match hp.1 hpvars) hrows hrow
    rw [Bindings.assignment_append]
    refine .repeated hrepetitions ?_ (instanceItems_of_match hp.2.1 hpsvars hrest
      (.inl (ps.closed_of_fixed hp.2.2)) (by rw [hcount, List.length_drop]; omega) hcs)
    refine collects_gather fun row hrow => ?_
    obtain ⟨v, -, hv⟩ := exists_of_mem_right hrows hrow
    exact matchPattern_binds hpvars hv

end

mutual

theorem match_of_instance : ∀ {p : Pattern} {v : Value} {σ : Assignment}, p.WellFormed →
    p.vars.Nodup → s.Instance p v σ → s.Straight v →
    ∃ bs, matchPattern s p v = .ok bs ∧ bs.assignment = σ
  | .wildcard, _, _, _, _, h, _ => by
    cases h
    exact ⟨[], rfl, rfl⟩
  | .variable x, v, _, _, _, h, _ => by
    cases h
    exact ⟨[(x, .one v)], rfl, Bindings.assignment_single x v⟩
  | .literal x, _, _, _, _, h, _ => by
    cases h with
    | literal hx =>
      exact ⟨[], by rw [matchPattern, if_pos (by simpa [Value.isNamed] using hx)], rfl⟩
  | .constant c, _, _, _, _, h, _ => by
    cases h with
    | constant hv => exact ⟨[], by rw [matchPattern, if_pos hv], rfl⟩
  | .list ps, v, _, hp, hvars, h, hstraight => by
    cases h with
    | list hv h =>
      obtain ⟨vs, tail, hchain⟩ := hstraight.here
      have hrow : s.Row (.cells v) vs (Subject.mk vs.length tail v).tail := hchain
      obtain ⟨bs, hbs, hσ⟩ :=
        matchItems_of_instance hp hvars h hstraight hrow (.inr rfl) (Nat.zero_add _).symm
      exact ⟨bs, matchPattern_list.mpr ⟨hv, vs, tail, hchain, hbs⟩, hσ⟩
  | .vector ps, _, _, hp, hvars, h, hstraight => by
    cases h with
    | vector h =>
      exact matchItems_of_instance hp.1 hvars h (fun w hw => hstraight.slot (.item hw)) ⟨rfl, rfl⟩
        (.inl hp.2) (Nat.zero_add _).symm

theorem matchItems_of_instance : ∀ {ps : PatternSeq} {subject : Subject} {n : Nat}
    {vs : List Value} {m : Remainder} {σ : Assignment}, ps.WellFormed → ps.vars.Nodup →
    s.InstanceItems ps m σ → s.RowThroughout s.Ends m → s.Row m vs subject.tail →
    ps.Closed ∨ m = .cells (s.dropPairs n subject.whole) → subject.count = n + vs.length →
    ∃ bs, matchItems s ps subject n vs = .ok bs ∧ bs.assignment = σ
  | .done, _, _, _, _, _, _, _, h, _, hrow, _, hcount => by
    cases h with
    | done hm =>
      obtain ⟨rfl, htail⟩ := hrow.of_ended hm
      exact ⟨[], matchItems_done.mpr ⟨hcount, htail, rfl⟩, rfl⟩
  | .rest p, _, _, _, _, _, hp, hvars, h, hstraight, _, hm, _ => by
    cases h with
    | rest h =>
      obtain ⟨bs, hbs, hσ⟩ := match_of_instance hp hvars h hstraight
      rcases hm with hclosed | hm
      · exact hclosed.elim
      · rw [Remainder.cells.inj hm] at hbs
        exact ⟨bs, by rw [matchItems, hbs], hσ⟩
  | .item p ps, _, _, _, _, _, hp, hvars, h, hstraight, hrow, hm, hcount => by
    obtain ⟨hpvars, hpsvars, -⟩ := List.nodup_append.mp hvars
    cases h with
    | item htakes hv hmore =>
      obtain ⟨more, rfl, hmorerow⟩ := htakes.row_cons hrow
      obtain ⟨hv', hm'⟩ := htakes.throughout hstraight
      rw [List.length_cons] at hcount
      obtain ⟨b, hb, rfl⟩ := match_of_instance hp.1 hpvars hv hv'
      obtain ⟨cs, hcs, rfl⟩ := matchItems_of_instance hp.2 hpsvars hmore hm' hmorerow
        (hm.imp id htakes.dropPairs) (by omega)
      have hleast := hmore.leading_le hmorerow
      exact ⟨b ++ cs, matchItems_item.mpr ⟨by omega, _, _, b, cs, rfl, hb, hcs, rfl⟩,
        Bindings.assignment_append b cs⟩
  | .repeated p ps, subject, n, vs, _, _, hp, hvars, h, hstraight, hrow, hm, hcount => by
    obtain ⟨hpvars, hpsvars, -⟩ := List.nodup_append.mp hvars
    cases h with
    | repeated hrepetitions hσ hmore =>
      obtain ⟨hm', taken, rest, rows, rfl, hrest, hrows, rfl⟩ :=
        hrepetitions.match (match_of_instance hp.1 hpvars) hstraight hrow
      -- Behind the ellipsis the number of items is fixed, and with it that of the repetitions.
      obtain ⟨hlength, htail⟩ := hmore.of_fixed hp.2.2 hrest
      rw [List.length_append] at hcount
      have hcount' : subject.count = n + taken.length + rest.length := by omega
      obtain ⟨cs, hcs, rfl⟩ := matchItems_of_instance hp.2.1 hpsvars hmore hm' hrest
        (.inl (ps.closed_of_fixed hp.2.2)) hcount'
      have htaken : subject.count - (n + ps.leading.length) = taken.length := by omega
      refine ⟨gather p.vars rows ++ cs, matchItems_repeated.mpr ⟨htail, by omega, rows, cs, ?_⟩, ?_⟩
      · rw [htaken, List.take_left, List.drop_left]
        exact ⟨hrows, hcs, rfl⟩
      · rw [Bindings.assignment_append]
        exact congrArg (Assignment.union · _) (eq_gather_of_collects hσ)

end

end SyntaxRules

end HygienicScheme
