import HygienicScheme.Proofs.Errors.Expansion
import HygienicScheme.Proofs.Expansion.Effects
import HygienicScheme.Proofs.Stamps.Forms
import HygienicScheme.Proofs.Store.Spines

/-!
# Taking the stamps off circular data

The search for stamps and the pass that takes them off go from part to part without remembering
where they were. A value that unfolds they walk to the end; a circle through an item of a list or a
vector is one that they never come out of.

A walk that splits lists goes from a list to its items and to its tail, and from a vector to its
items. It goes nowhere from a list that is circular along its tails, so it only goes around where a
path leads back through an item. Where no path does, it is no deeper than the store has cells.
-/
namespace HygienicScheme

variable {s t u : Store} {v w tail : Value} {items : List Value} {m n : Nat}

/-! ### Values that unfold -/

namespace Store

def partsOf (s : Store) : Value → List Value
  | .pair a =>
    match s.splitList? (.pair a) with
    | some (items, tail) => items ++ [tail]
    | none => []
  | .vector a => (s.vectorAt a).toList
  | _ => []

def Part (s : Store) (v w : Value) : Prop := w ∈ s.partsOf v

def Unfolds (s : Store) (v : Value) : Prop := Acc (Function.swap s.Part) v

theorem Leaf.not_part (h : Leaf v) : ¬ s.Part v w := by
  cases v with
  | pair a => exact absurd rfl (h.1 a)
  | vector a => exact absurd rfl (h.2 a)
  | _ => exact List.not_mem_nil

theorem partsOf_chain {a : Address} (h : s.Chain (.pair a) items tail) :
    s.partsOf (.pair a) = items ++ [tail] := by
  rw [partsOf, splitList?_eq_some.mpr h]

theorem part_pair {a : Address} :
    s.Part (.pair a) w ↔ ∃ items tail, s.Chain (.pair a) items tail ∧ (w ∈ items ∨ w = tail) := by
  constructor
  · intro hw
    rw [Part, partsOf] at hw
    split at hw
    · rename_i items tail hsplit
      exact ⟨items, tail, splitList?_eq_some.mp hsplit, by simpa using hw⟩
    · cases hw
  · rintro ⟨items, tail, hchain, hw⟩
    rw [Part, partsOf_chain hchain]
    simpa using hw

theorem Throughout.part {P : Value → Prop} (h : s.Throughout P v) (hw : s.Part v w) :
    s.Throughout P w := by
  cases v with
  | pair a =>
    obtain ⟨items, tail, hchain, hw⟩ := part_pair.mp hw
    obtain ⟨hitems, htail⟩ := h.chain hchain
    rcases hw with hw | rfl
    · exact hitems w hw
    · exact htail
  | vector a => exact h.slot (.item hw)
  | _ => exact absurd hw List.not_mem_nil

theorem Throughout.reached {P : Value → Prop} (h : s.Throughout P v)
    (hw : Relation.ReflTransGen s.Part v w) : s.Throughout P w := by
  induction hw with
  | refl => exact h
  | tail _ hw ih => exact ih.part hw

theorem Inside.part_grows (h : s.Inside v) (hg : s.Grows t) : t.Part v w ↔ s.Part v w := by
  cases v with
  | pair a => rw [Part, Part, partsOf, partsOf, h.splitList?_grows hg]
  | vector a => rw [Part, Part, partsOf, partsOf, hg.vectorAt_eq h.here]
  | _ => rfl

/-- A value in the store unfolds after the store has grown exactly if it did before. -/
theorem Inside.unfolds_grows (h : s.Inside v) (hg : s.Grows t) : t.Unfolds v ↔ s.Unfolds v := by
  constructor
  · intro hacc
    induction hacc with
    | intro v _ ih => exact ⟨v, fun w hw => ih w ((h.part_grows hg).mpr hw) (h.part hw)⟩
  · intro hacc
    induction hacc with
    | intro v _ ih =>
      refine ⟨v, fun w hw => ?_⟩
      have hw : s.Part v w := (h.part_grows hg).mp hw
      exact ih w hw (h.part hw)

def PartsWithin (s : Store) : Nat → Value → Prop := Bounded Leaf s.Part

theorem PartsWithin.unfolds (h : s.PartsWithin n v) : s.Unfolds v := Bounded.acc Leaf.not_part h

theorem Inside.partsWithin (hv : s.Inside v)
    (h : ∀ w, Relation.ReflTransGen s.Part v w → ¬ Relation.TransGen s.Part w w) :
    s.PartsWithin s.cells v := by
  have hcells : ∀ u, Relation.ReflTransGen s.Part v u → ¬ Leaf u →
      ∃ c ∈ Finset.range s.cells, s.cellAt c = u := by
    intro u hu hnot
    obtain ⟨c, hc, hcell⟩ := (hv.reached hu).here.exists_cell hnot
    exact ⟨c, Finset.mem_range.mpr hc, hcell⟩
  have hbounded := bounded_of_cells Leaf.not_part (Finset.range s.cells) h hcells
  rwa [Finset.card_range] at hbounded

/-- A value in the store unfolds exactly if no path from part to part goes around. -/
theorem Inside.unfolds_iff (hv : s.Inside v) :
    s.Unfolds v ↔ ∀ w, Relation.ReflTransGen s.Part v w → ¬ Relation.TransGen s.Part w w :=
  ⟨fun h _ hw => not_below_self (acc_of_reached h hw), fun h => (hv.partsWithin h).unfolds⟩

theorem Unfolds.partsWithin (h : s.Unfolds v) (hv : s.Inside v) : s.PartsWithin s.cells v :=
  hv.partsWithin (hv.unfolds_iff.mp h)

theorem Tree.part (h : s.Tree v) (hw : s.Part v w) : s.Tree w :=
  (Throughout.of_invariant (fun _ _ hv => hv.slot) h : s.Throughout s.Tree v).part hw |>.here

theorem Within.part (h : s.Within (n + 1) v) (hw : s.Part v w) : s.Within n w := by
  cases v with
  | pair a =>
    obtain ⟨items, tail, hchain, hw⟩ := part_pair.mp hw
    obtain ⟨hitems, htail⟩ := h.parts hchain
    rcases hw with hw | rfl
    · exact hitems w hw
    · exact htail
  | vector a => exact h w hw
  | _ => exact absurd hw (Leaf.not_part ⟨nofun, nofun⟩)

theorem Within.partsWithin (h : s.Within n v) : s.PartsWithin n v := by
  induction n generalizing v with
  | zero => exact h
  | succ n ih => exact fun w hw => ih (h.part hw)

end Store

/-! ### The search and the pass -/

def Action.Succeeds {α : Type} (x : Action α) (s : Store) : Prop :=
  ∀ t, s.Grows t → ∃ a u, x t = .ok a u

namespace Action.Succeeds

variable {α β : Type}

theorem pure (a : α) : (Pure.pure a : Action α).Succeeds s := fun t _ => ⟨a, t, rfl⟩

theorem bind {x : Action α} {f : α → Action β} (hexpanding : x.Expanding) (hx : x.Succeeds s)
    (hf : ∀ a, (f a).Succeeds s) : (x >>= f).Succeeds s := by
  intro t hg
  obtain ⟨a, u, hxt⟩ := hx t hg
  rw [Action.bind_ok hxt]
  exact hf a u (hg.trans (hexpanding.of_ok hxt).toGrows)

theorem lift {b : Build α} : (liftM b : Action α).Succeeds s := fun _ _ => ⟨_, _, rfl⟩

theorem mapM {f : Value → Action β} (hexpanding : ∀ v, (f v).Expanding) {vs : List Value}
    (h : ∀ v ∈ vs, (f v).Succeeds s) : (vs.mapM f).Succeeds s := by
  induction vs with
  | nil => exact pure []
  | cons v more ih =>
    obtain ⟨hv, hmore⟩ := List.forall_mem_cons.mp h
    rw [List.mapM_cons]
    exact hv.bind (hexpanding v) fun w => (ih hmore).bind (.mapM hexpanding more) fun ws => pure _

end Action.Succeeds

namespace Store

theorem anyOf_decides {test : Value → Option Bool} (h : ∀ v ∈ items, ∃ b, test v = some b) :
    ∃ b, anyOf test items = some b := by
  induction items with
  | nil => exact ⟨false, rfl⟩
  | cons v more ih =>
    obtain ⟨⟨b, hb⟩, hmore⟩ := List.forall_mem_cons.mp h
    rw [anyOf, hb]
    cases b with
    | true => exact ⟨true, rfl⟩
    | false => exact ih hmore

theorem exists_of_anyOf {test : Value → Option Bool} (h : anyOf test items = some true) :
    ∃ v ∈ items, test v = some true := by
  induction items with
  | nil => cases h
  | cons v more ih =>
    rw [anyOf] at h
    split at h
    · obtain ⟨w, hw, htest⟩ := ih h
      exact ⟨w, List.mem_cons_of_mem v hw, htest⟩
    · exact ⟨v, List.mem_cons_self, h⟩

theorem stampedWithin_partsOf (hv : ∀ x, v ≠ .symbol x) :
    s.stampedWithin (n + 1) v = anyOf (s.stampedWithin n) (s.partsOf v) := by
  cases v with
  | symbol x => exact absurd rfl (hv x)
  | pair a =>
    rw [stampedWithin, partsOf]
    cases s.splitList? (.pair a) <;> rfl
  | _ => rfl

theorem stampedWithin_decides (h : s.PartsWithin n v) (hm : n < m) :
    ∃ b, s.stampedWithin m v = some b := by
  induction m generalizing n v with
  | zero => exact absurd hm (Nat.not_lt_zero n)
  | succ m ih =>
    by_cases hv : ∃ x, v = .symbol x
    · obtain ⟨x, rfl⟩ := hv
      exact ⟨x.isStamped, rfl⟩
    · rw [stampedWithin_partsOf (not_exists.mp hv)]
      refine anyOf_decides fun w hw => ?_
      cases n with
      | zero => exact absurd hw (Leaf.not_part h)
      | succ n => exact ih (h w hw) (Nat.lt_of_succ_lt_succ hm)

theorem exists_part_of_search (h : s.stampedWithin n v = some true) (hv : ∀ x, v ≠ .symbol x) :
    ∃ w, s.Part v w := by
  cases n with
  | zero => cases h
  | succ n =>
    rw [stampedWithin_partsOf hv] at h
    obtain ⟨w, hw, -⟩ := exists_of_anyOf h
    exact ⟨w, hw⟩

theorem partsWithin_of_search (h : s.stampedWithin n v = some false) : s.PartsWithin n v := by
  induction n generalizing v with
  | zero => cases h
  | succ n ih =>
    by_cases hv : ∃ x, v = .symbol x
    · obtain ⟨x, rfl⟩ := hv
      exact fun w hw => absurd hw (Leaf.not_part ⟨nofun, nofun⟩)
    · rw [stampedWithin_partsOf (not_exists.mp hv), anyOf_eq_false] at h
      exact fun w hw => ih (h w hw)

def Stampless (s : Store) (v : Value) : Prop :=
  ∀ x : Symbol, Relation.ReflTransGen s.Part v (.symbol x) → x.isStamped = false

theorem Stampless.stampedWithin_ne (h : s.Stampless v) : s.stampedWithin n v ≠ some true := by
  induction n generalizing v with
  | zero => nofun
  | succ n ih =>
    intro hfound
    by_cases hv : ∃ x, v = .symbol x
    · obtain ⟨x, rfl⟩ := hv
      have hx : x.isStamped = true := Option.some.inj hfound
      rw [h x .refl] at hx
      cases hx
    · rw [stampedWithin_partsOf (not_exists.mp hv)] at hfound
      obtain ⟨w, hw, hfound⟩ := exists_of_anyOf hfound
      exact ih (fun x hx => h x (.head hw hx)) hfound

theorem Unfolds.isStamped? (h : s.Unfolds v) (hv : s.Inside v) : ∃ b, s.isStamped? v = some b :=
  stampedWithin_decides (h.partsWithin hv) (by have := s.cells_lt_walkBound; omega)

theorem unfolds_of_search (h : s.isStamped? v = some false) : s.Unfolds v :=
  (partsWithin_of_search h).unfolds

theorem Stampless.isStamped?_eq_none (h : s.Stampless v) (hv : s.Inside v) :
    s.isStamped? v = none ↔ ¬ s.Unfolds v := by
  constructor
  · intro hnone hunfolds
    obtain ⟨b, hb⟩ := hunfolds.isStamped? hv
    rw [hnone] at hb
    cases hb
  · intro hnot
    cases hsearch : s.isStamped? v with
    | none => rfl
    | some b =>
      cases b with
      | true => exact absurd hsearch h.stampedWithin_ne
      | false => exact absurd (unfolds_of_search hsearch) hnot

end Store

namespace Renaming

theorem expanding_rebuild {f : Value → Action Value} (hf : ∀ v, (f v).Expanding)
    (items : List Value) (tail : Value) : (rebuild f items tail).Expanding :=
  Action.Expanding.bind (.mapM hf items) fun _ => (hf tail).bind fun _ =>
    .lift (Build.expanding_listWithTail _ _)

theorem rebuild_succeeds {f : Value → Action Value} (hf : ∀ v, (f v).Expanding)
    (hitems : ∀ w ∈ items, (f w).Succeeds s) (htail : (f tail).Succeeds s) :
    (rebuild f items tail).Succeeds s :=
  Action.Succeeds.bind (.mapM hf items) (.mapM hf hitems) fun _ =>
    htail.bind (hf tail) fun _ => .lift

theorem strip_unstamped (h : s.isStamped? v = some false) : strip (m + 1) v s = .ok v s := by
  unfold strip
  rw [Action.get_bind, h]
  rfl

theorem strip_list {a : Address} (h : s.isStamped? (.pair a) = some true)
    (hsplit : s.splitList? (.pair a) = some (items, tail)) :
    strip (m + 1) (.pair a) s = rebuild (strip m) items tail s := by
  conv_lhs => unfold strip
  rw [Action.get_bind, h, Action.ended_some_bind]
  simp only [if_true, hsplit]

theorem strip_vector {a : Address} (h : s.isStamped? (.vector a) = some true) :
    strip (m + 1) (.vector a) s = ((s.vectorAt a).toList.mapM (strip m) >>= fun items =>
      liftM (Build.vector items.toArray) : Action Value) s := by
  conv_lhs => unfold strip
  rw [Action.get_bind, h]
  rfl

theorem strip_symbol {x : Symbol} (h : s.isStamped? (.symbol x) = some true) :
    strip (m + 1) (.symbol x) s = .ok (.symbol x.unstamped) s := by
  unfold strip
  rw [Action.get_bind, h]
  rfl

theorem strip_succeeds (hv : s.Inside v) (h : s.PartsWithin n v) (hm : n < m) :
    (strip m v).Succeeds s := by
  induction m generalizing n v with
  | zero => exact absurd hm (Nat.not_lt_zero n)
  | succ m ih =>
    have hpart : ∀ w, s.Part v w → (strip m w).Succeeds s := by
      intro w hw
      cases n with
      | zero => exact absurd hw (Store.Leaf.not_part h)
      | succ n => exact ih (hv.part hw) (h w hw) (Nat.lt_of_succ_lt_succ hm)
    intro t hg
    obtain ⟨b, hb⟩ := ((hv.unfolds_grows hg).mpr h.unfolds).isStamped? (hv.grows hg)
    cases b with
    | false => exact ⟨v, t, strip_unstamped hb⟩
    | true =>
      cases v with
      | symbol x => exact ⟨_, t, strip_symbol hb⟩
      | pair a =>
        obtain ⟨w, hw⟩ := Store.exists_part_of_search hb nofun
        obtain ⟨items, tail, hchain, -⟩ := Store.part_pair.mp hw
        rw [strip_list hb (Store.splitList?_eq_some.mpr hchain)]
        have hchain := (hv.chain_grows hg).mp hchain
        have hitems : ∀ w ∈ items, (strip m w).Succeeds s := fun w hw =>
          hpart w (Store.part_pair.mpr ⟨items, tail, hchain, .inl hw⟩)
        have htail : (strip m tail).Succeeds s :=
          hpart tail (Store.part_pair.mpr ⟨items, tail, hchain, .inr rfl⟩)
        exact rebuild_succeeds (expanding_strip m) hitems htail t hg
      | vector a =>
        rw [strip_vector hb, hg.vectorAt_eq hv.here]
        exact (Action.Succeeds.mapM (expanding_strip m) hpart).bind (.mapM (expanding_strip m) _)
          (fun _ => .lift) t hg
      | _ =>
        obtain ⟨w, hw⟩ := Store.exists_part_of_search hb nofun
        exact absurd hw (Store.Leaf.not_part ⟨nofun, nofun⟩)

theorem rebuild_each {f : Value → Action Value} (hf : ∀ v, (f v).Expanding)
    (h : rebuild f items tail s = .ok w t) :
    ∀ v, v ∈ items ∨ v = tail → ∃ s' w t', s.Expands s' ∧ f v s' = .ok w t' := by
  obtain ⟨ws, s', hitems, h⟩ := Action.ok_of_bind h
  obtain ⟨w', t', htail, -⟩ := Action.ok_of_bind h
  rintro v (hv | rfl)
  · exact Action.Expanding.mapM_each hf hitems v hv
  · exact ⟨s', w', t', (Action.Expanding.mapM hf items).of_ok hitems, htail⟩

theorem unfolds_of_strip (hg : s.Grows t) (hv : s.Inside v) (h : strip m v t = .ok w u) :
    s.Unfolds v := by
  induction m generalizing v w t u with
  | zero => cases h
  | succ m ih =>
    have hwalked : ∀ w, s.Part v w → (∃ t' w' u', t.Expands t' ∧ strip m w t' = .ok w' u') →
        s.Unfolds w := by
      rintro w hw ⟨t', w', u', ht, hw'⟩
      exact ih (hg.trans ht.toGrows) (hv.part hw) hw'
    cases hsearch : t.isStamped? v with
    | none =>
      unfold strip at h
      rw [Action.get_bind, hsearch] at h
      cases h
    | some b =>
      cases b with
      | false => exact (hv.unfolds_grows hg).mp (Store.unfolds_of_search hsearch)
      | true =>
        refine ⟨v, fun w hw => hwalked w hw ?_⟩
        cases v with
        | pair a =>
          obtain ⟨items, tail, hchain, hw⟩ := Store.part_pair.mp hw
          have hchain := (hv.chain_grows hg).mpr hchain
          rw [strip_list hsearch (Store.splitList?_eq_some.mpr hchain)] at h
          exact rebuild_each (expanding_strip m) h w hw
        | vector a =>
          rw [strip_vector hsearch, hg.vectorAt_eq hv.here] at h
          obtain ⟨ws, t', hitems, -⟩ := Action.ok_of_bind h
          exact Action.Expanding.mapM_each (expanding_strip m) hitems w hw
        | _ => exact absurd hw (Store.Leaf.not_part ⟨by simp, by simp⟩)

/-- Taking off the stamps comes to an end exactly where the value unfolds. -/
theorem stripStamps_ends (hv : s.Inside v) :
    (s.Unfolds v → ∃ w t, stripStamps v s = .ok w t) ∧
      (¬ s.Unfolds v → ∃ t, stripStamps v s = .error .endless t) := by
  constructor
  · intro h
    have hbound := s.cells_lt_walkBound
    exact strip_succeeds hv (h.partsWithin hv) (by omega) s (.refl s)
  · intro hnot
    change ∃ t, strip s.walkBound v s = _
    cases hstrip : strip s.walkBound v s with
    | ok w t => exact absurd (unfolds_of_strip (.refl s) hv hstrip) hnot
    | error e t =>
      obtain rfl : e = .endless := Ordinary.strip (E := (· = .endless)) rfl _ v s e t hstrip
      exact ⟨t, rfl⟩

end Renaming

end HygienicScheme
