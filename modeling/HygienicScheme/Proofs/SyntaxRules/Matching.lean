import HygienicScheme.Proofs.SyntaxRules.Reading
import HygienicScheme.SyntaxRules.Match
import Mathlib.Data.List.Forall2

/-!
# Matching case by case

What it takes for a list pattern to match, one equation for each kind of item.
-/
namespace HygienicScheme.SyntaxRules

theorem exists_of_mem_right {α β : Type} {R : α → β → Prop} {as : List α} {bs : List β}
    (h : List.Forall₂ R as bs) {b : β} (hb : b ∈ bs) : ∃ a ∈ as, R a b := by
  induction h with
  | nil => cases hb
  | cons hab _ ih =>
    rcases List.mem_cons.mp hb with rfl | hb
    · exact ⟨_, List.mem_cons_self, hab⟩
    · obtain ⟨a, ha, hr⟩ := ih hb
      exact ⟨a, List.mem_cons_of_mem _ ha, hr⟩

theorem matchEach_ok_iff {f : Value → Except Mismatch Bindings} {vs : List Value}
    {rows : List Bindings} :
    matchEach f vs = .ok rows ↔ List.Forall₂ (fun v row => f v = .ok row) vs rows := by
  constructor
  · intro h
    induction vs generalizing rows with
    | nil =>
      cases h
      exact .nil
    | cons v more ih =>
      obtain ⟨first, hfirst, h⟩ := ok_of_bind h
      obtain ⟨rest, hrest, h⟩ := ok_of_bind h
      cases h
      exact .cons hfirst (ih hrest)
  · intro h
    induction h with
    | nil => rfl
    | cons hv _ ih =>
      rw [matchEach, hv, ih]
      rfl

variable {s : Store}

/-- What a list pattern needs to match: the items of the list and what it ends in. -/
theorem matchPattern_list {ps : PatternSeq} {v : Value} {bs : Bindings} :
    matchPattern s (.list ps) v = .ok bs ↔ (v = .null ∨ ∃ a, v = .pair a) ∧
      ∃ vs tail, s.Chain v vs tail ∧ matchItems s ps ⟨vs.length, tail, v⟩ 0 vs = .ok bs := by
  constructor
  · intro h
    unfold matchPattern at h
    split at h
    · split at h
      · cases h
      · rename_i a _ vs tail hsplit
        exact ⟨.inr ⟨a, rfl⟩, vs, tail, Store.splitList?_eq_some.mp hsplit, h⟩
    · split at h
      · cases h
      · rename_i vs tail hsplit
        exact ⟨.inl rfl, vs, tail, Store.splitList?_eq_some.mp hsplit, h⟩
    · cases h
  · rintro ⟨hv, vs, tail, hchain, h⟩
    have hsplit := Store.splitList?_eq_some.mpr hchain
    rcases hv with rfl | ⟨a, rfl⟩
    · rw [matchPattern, hsplit]
      exact h
    · rw [matchPattern, hsplit]
      exact h

theorem matchItems_item {p : Pattern} {ps : PatternSeq} {subject : Subject} {n : Nat}
    {vs : List Value} {bs : Bindings} :
    matchItems s (.item p ps) subject n vs = .ok bs ↔ n + 1 + ps.leading.length ≤ subject.count ∧
      ∃ v more b cs, vs = v :: more ∧ matchPattern s p v = .ok b ∧
        matchItems s ps subject (n + 1) more = .ok cs ∧ bs = b ++ cs := by
  cases vs with
  | nil =>
    rw [matchItems]
    split_ifs <;> simp
  | cons v more =>
    rw [matchItems]
    by_cases hcount : subject.count < n + 1 + ps.leading.length
    · simp [hcount, Nat.not_le.mpr hcount]
    · rw [if_neg hcount]
      constructor
      · intro h
        obtain ⟨b, hb, h⟩ := ok_of_bind h
        obtain ⟨cs, hcs, h⟩ := ok_of_bind h
        cases h
        exact ⟨Nat.not_lt.mp hcount, v, more, b, cs, rfl, hb, hcs, rfl⟩
      · rintro ⟨-, _, _, b, cs, heq, hb, hcs, rfl⟩
        cases heq
        rw [hb]
        change (matchItems s ps subject (n + 1) more >>= _) = _
        rw [hcs]
        rfl

theorem matchItems_repeated {p : Pattern} {ps : PatternSeq} {subject : Subject} {n : Nat}
    {vs : List Value} {bs : Bindings} :
    matchItems s (.repeated p ps) subject n vs = .ok bs ↔
      subject.tail = .null ∧ n + ps.leading.length ≤ subject.count ∧ ∃ rows cs,
        List.Forall₂ (fun v row => matchPattern s p v = .ok row)
          (vs.take (subject.count - (n + ps.leading.length))) rows ∧
        matchItems s ps subject (n + (subject.count - (n + ps.leading.length)))
          (vs.drop (subject.count - (n + ps.leading.length))) = .ok cs ∧
        bs = gather p.vars rows ++ cs := by
  rw [matchItems]
  by_cases htail : subject.tail = .null
  · rw [if_neg (by simp [htail, Value.isNull])]
    by_cases hcount : subject.count < n + ps.leading.length
    · simp [hcount, Nat.not_le.mpr hcount]
    · rw [if_neg hcount]
      constructor
      · intro h
        obtain ⟨rows, hrows, h⟩ := ok_of_bind h
        obtain ⟨cs, hcs, h⟩ := ok_of_bind h
        cases h
        exact ⟨htail, Nat.not_lt.mp hcount, rows, cs, matchEach_ok_iff.mp hrows, hcs, rfl⟩
      · rintro ⟨-, -, rows, cs, hrows, hcs, rfl⟩
        dsimp only
        rw [matchEach_ok_iff.mpr hrows]
        change (matchItems s ps subject _ _ >>= _) = _
        rw [hcs]
        rfl
  · have hnull : subject.tail.isNull = false :=
      Bool.eq_false_iff.mpr fun h => htail (isNull_iff.mp h)
    simp [htail, hnull]

theorem matchItems_done {subject : Subject} {n : Nat} {vs : List Value} {bs : Bindings} :
    matchItems s .done subject n vs = .ok bs ↔
      subject.count = n ∧ subject.tail = .null ∧ bs = [] := by
  rw [matchItems]
  by_cases hcount : subject.count = n ∧ subject.tail = .null
  · simp [hcount, Value.isNull, eq_comm]
  · rw [if_neg (by simpa [isNull_iff] using hcount)]
    simp only [reduceCtorEq, false_iff]
    exact fun h => hcount ⟨h.1, h.2.1⟩

end HygienicScheme.SyntaxRules
