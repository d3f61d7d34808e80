import HygienicScheme.Proofs.Printing.Written
import HygienicScheme.Proofs.Store.Copies
import HygienicScheme.Proofs.Store.Trees

/-!
# Structural equality of acyclic values

Structural equality is first said as the plain recursion over both values, without a bound and
without looking whether two cells are the same one. On acyclic values this is an equivalence, it
contains identity, and it is what the comparison decides: the shortcut at shared cells is right
because the recursion is reflexive, and the comparison ends because a tree is no higher than the
store has cells. Structurally equal values are printed step by step alike, also where the budget
cuts them off, so no text tells them apart.
-/
namespace HygienicScheme

namespace Decimal

theorem written_of_bits {x y : Float} (h : x.toBits = y.toBits) : written x = written y := by
  rw [written, written, Kind.ofFloat, Kind.ofFloat, h]

end Decimal

namespace Value

variable {u v w : Value}

theorem same_refl (v : Value) : v.same v := by
  cases v <;> simp [same, eqv]

theorem same_symm (h : v.same w) : w.same v := same_right h (same_refl v)

theorem same_trans (h : u.same v) (k : v.same w) : u.same w := same_right (same_symm h) k

theorem same_of_eqv (h : v.eqv w) : v.same w := by
  cases v with
  | string x =>
    cases w with
    | string y => simp_all [same, eqv]
    | _ => cases h
  | _ => cases w <;> exact h

end Value

namespace Store

variable {s : Store} {a b c u v w : Value} {n : Nat}

/-- Structural equality as the plain recursion has it: pairs slot by slot, vectors of one size item
by item, strings by their text and everything else by identity. -/
inductive Equal (s : Store) : Value → Value → Prop
  | leaf {v w : Value} (hv : Leaf v) (h : v.same w) : Equal s v w
  | pair {a b : Address} (hcar : Equal s (s.pairAt a).car (s.pairAt b).car)
      (hcdr : Equal s (s.pairAt a).cdr (s.pairAt b).cdr) : Equal s (.pair a) (.pair b)
  | vector {a b : Address} (hsize : (s.vectorAt a).toList.length = (s.vectorAt b).toList.length)
      (hitems : ∀ v w, (v, w) ∈ (s.vectorAt a).toList.zip (s.vectorAt b).toList → Equal s v w) :
      Equal s (.vector a) (.vector b)

theorem Leaf.of_same (hv : Leaf v) (h : v.same w) : Leaf w := by
  refine ⟨?_, ?_⟩ <;> rintro a rfl <;> cases v <;>
    first | exact absurd rfl (hv.1 _) | exact absurd rfl (hv.2 _) | cases h

namespace Equal

theorem vector_iff {a b : Address} : s.Equal (.vector a) (.vector b) ↔
    List.Forall₂ s.Equal (s.vectorAt a).toList (s.vectorAt b).toList := by
  rw [List.forall₂_iff_zip]
  refine ⟨?_, fun ⟨hsize, hitems⟩ => .vector hsize fun _ _ => hitems⟩
  rintro (⟨hv, -⟩ | _ | ⟨hsize, hitems⟩)
  · exact absurd rfl (hv.2 a)
  · exact ⟨hsize, hitems _ _⟩

theorem refl (h : s.Tree v) : s.Equal v v := by
  induction h with
  | leaf hp hv => exact .leaf ⟨hp, hv⟩ (Value.same_refl _)
  | pair _ _ _ hcar hcdr => exact .pair hcar hcdr
  | vector _ _ ih => exact vector_iff.mpr (List.forall₂_same.mpr ih)

theorem symm (h : s.Equal v w) : s.Equal w v := by
  induction h with
  | leaf hv h => exact .leaf (hv.of_same h) (Value.same_symm h)
  | pair _ _ hcar hcdr => exact .pair hcar hcdr
  | vector hsize _ ih =>
    exact vector_iff.mpr (List.forall₂_iff_zip.mpr ⟨hsize, ih _ _⟩).flip

theorem items_trans {us vs ws : List Value}
    (h : List.Forall₂ (fun u v => ∀ {w}, s.Equal v w → s.Equal u w) us vs)
    (k : List.Forall₂ s.Equal vs ws) : List.Forall₂ s.Equal us ws := by
  induction h generalizing ws with
  | nil => exact k
  | cons hitem _ ih =>
    cases k with
    | cons kitem k => exact .cons (hitem kitem) (ih k)

theorem trans (h : s.Equal u v) (k : s.Equal v w) : s.Equal u w := by
  induction h generalizing w with
  | leaf hu h =>
    cases k with
    | leaf _ k => exact .leaf hu (Value.same_trans h k)
    | pair => exact absurd rfl ((hu.of_same h).1 _)
    | vector => exact absurd rfl ((hu.of_same h).2 _)
  | pair _ _ hcar hcdr =>
    cases k with
    | leaf hv => exact absurd rfl (hv.1 _)
    | pair kcar kcdr => exact .pair (hcar kcar) (hcdr kcdr)
  | vector hsize _ ih =>
    cases k with
    | leaf hv => exact absurd rfl (hv.2 _)
    | vector ksize kitems =>
      exact vector_iff.mpr (items_trans (List.forall₂_iff_zip.mpr ⟨hsize, ih _ _⟩)
        (List.forall₂_iff_zip.mpr ⟨ksize, kitems _ _⟩))

/-- What is identical is equal, as far as it can be unfolded. -/
theorem of_eqv (hv : s.Tree v) (h : v.eqv w) : s.Equal v w := by
  cases v with
  | pair a =>
    cases w with
    | pair b =>
      obtain rfl : a = b := by simpa [Value.eqv] using h
      exact refl hv
    | _ => cases h
  | vector a =>
    cases w with
    | vector b =>
      obtain rfl : a = b := by simpa [Value.eqv] using h
      exact refl hv
    | _ => cases h
  | _ => exact .leaf ⟨by simp, by simp⟩ (Value.same_of_eqv h)

end Equal

/-! ## What the comparison decides -/

theorem allPairs_ends {same : Value → Value → Option Bool} {vs ws : List Value}
    (h : ∀ v ∈ vs, ∀ w, ∃ answer, same v w = some answer) :
    ∃ answer, allPairs same vs ws = some answer := by
  induction vs generalizing ws with
  | nil => cases ws <;> exact ⟨_, rfl⟩
  | cons v vs ih =>
    cases ws with
    | nil => exact ⟨_, rfl⟩
    | cons w ws =>
      obtain ⟨hv, hvs⟩ := List.forall_mem_cons.mp h
      obtain ⟨answer, hanswer⟩ := hv w
      rw [allPairs, hanswer]
      cases answer with
      | true => exact ih hvs
      | false => exact ⟨_, rfl⟩

theorem equalWithin_ends (h : s.Within n v) :
    ∃ answer, s.equalWithin (n + 1) v w = some answer := by
  induction n generalizing v w with
  | zero => exact ⟨_, equalWithin_leaf h⟩
  | succ n ih =>
    cases v with
    | pair a =>
      cases w with
      | pair b =>
        obtain ⟨car, hcar⟩ := ih (w := (s.pairAt b).car) h.1
        obtain ⟨cdr, hcdr⟩ := ih (w := (s.pairAt b).cdr) h.2
        rw [equalWithin, hcar, hcdr]
        cases car <;> split <;> exact ⟨_, rfl⟩
      | _ => exact ⟨_, rfl⟩
    | vector a =>
      cases w with
      | vector b =>
        obtain ⟨answer, hanswer⟩ : ∃ answer, allPairs (s.equalWithin (n + 1))
            (s.vectorAt a).toList (s.vectorAt b).toList = some answer :=
          allPairs_ends fun v hv w => ih (h v hv)
        rw [equalWithin, hanswer]
        split
        · exact ⟨_, rfl⟩
        · split <;> exact ⟨_, rfl⟩
      | _ => exact ⟨_, rfl⟩
    | _ => exact ⟨_, equalWithin_leaf ⟨by simp, by simp⟩⟩

theorem Equal.of_equalWithin (hv : s.Tree v) (h : s.equalWithin n v w = some true) :
    s.Equal v w := by
  induction hv generalizing n w with
  | leaf hp hv =>
    cases n with
    | zero => cases h
    | succ n =>
      rw [equalWithin_leaf ⟨hp, hv⟩, Option.some_inj] at h
      exact .leaf ⟨hp, hv⟩ h
  | @pair a ha hcar hcdr ihcar ihcdr =>
    cases n with
    | zero => cases h
    | succ n =>
      cases w with
      | pair b =>
        -- Where the walk stops at a shared cell, the plain recursion would have said yes.
        rcases equalWithin_pair.mp h with rfl | ⟨kcar, kcdr⟩
        · exact .refl (.pair ha hcar hcdr)
        · exact .pair (ihcar kcar) (ihcdr kcdr)
      | _ => cases h
  | @vector a ha hitems ih =>
    cases n with
    | zero => cases h
    | succ n =>
      cases w with
      | vector b =>
        rcases equalWithin_vector.mp h with rfl | kitems
        · exact .refl (.vector ha hitems)
        · exact Equal.vector_iff.mpr (((List.forall₂_and_left _ _).mpr ⟨ih, kitems⟩).imp
            fun _ _ hvw => hvw.1 hvw.2)
      | _ => cases h

theorem Equal.equalWithin (h : s.Equal v w) (hv : s.Within n v) :
    s.equalWithin (n + 1) v w = some true := by
  induction h generalizing n with
  | leaf hleaf h => rw [equalWithin_leaf hleaf, h]
  | pair _ _ ihcar ihcdr =>
    cases n with
    | zero => exact absurd rfl (hv.1 _)
    | succ n => exact equalWithin_pair.mpr (.inr ⟨ihcar hv.1, ihcdr hv.2⟩)
  | vector hsize _ ih =>
    cases n with
    | zero => exact absurd rfl (hv.2 _)
    | succ n =>
      refine equalWithin_vector.mpr (.inr (List.forall₂_iff_zip.mpr ⟨hsize, fun hvw => ?_⟩))
      exact ih _ _ hvw (hv _ (List.of_mem_zip hvw).1)

theorem equal?_iff (hv : s.Tree v) : s.equal? v w = some true ↔ s.Equal v w := by
  refine ⟨.of_equalWithin hv, fun h => equalWithin_mono (h.equalWithin hv.within) ?_⟩
  have := s.cells_lt_walkBound
  omega

theorem equal?_decides (hv : s.Tree v) (w : Value) :
    s.equal? v w = some true ∧ s.Equal v w ∨ s.equal? v w = some false ∧ ¬ s.Equal v w := by
  rw [← equal?_iff hv]
  obtain ⟨m, hm⟩ : ∃ m, s.walkBound = m + 1 := s.exists_walkBound
  have hbound := s.cells_lt_walkBound
  obtain ⟨answer, hanswer⟩ : ∃ answer, s.equal? v w = some answer := by
    rw [equal?, hm]
    exact equalWithin_ends (hv.within.mono (by omega))
  rw [hanswer]
  cases answer <;> simp

/-! ## What is printed of equal values -/

namespace Printout

structure Even (p q : Printout) : Prop where
  text_eq : p.text = q.text
  budget_eq : p.budget = q.budget

namespace Even

variable {p q : Printout}

theorem add (h : p.Even q) (text : String) : (p.add text).Even (q.add text) :=
  ⟨congrArg (· ++ text) h.text_eq, h.budget_eq⟩

theorem spend (h : p.Even q) : p.spend.Even q.spend := ⟨h.text_eq, congrArg (· - 1) h.budget_eq⟩

theorem enter (h : p.Even q) (a b : Address) : (p.enter a).Even (q.enter b) :=
  ⟨h.text_eq, h.budget_eq⟩

theorem separate (h : p.Even q) (first : Bool) : (p.separate first).Even (q.separate first) := by
  cases first with
  | true => exact h
  | false => exact h.add " "

end Even

end Printout

theorem atomText_same {mode : PrintMode} (hv : Leaf v) (h : v.same w) :
    s.atomText mode v = s.atomText mode w := by
  cases v with
  | pair a => exact absurd rfl (hv.1 a)
  | vector a => exact absurd rfl (hv.2 a)
  | float x =>
    cases w with
    | float y => exact Decimal.written_of_bits (by simpa [Value.same, Value.eqv] using h)
    | _ => cases h
  | _ => cases w <;> simp_all [Value.same, Value.eqv, atomText]

structure PrintsEven (s : Store) (mode : PrintMode) (v w : Value) : Prop where
  node : ∀ p q : Printout, p.Even q → (s.printNode mode p v).1.Even (s.printNode mode q w).1
  tail : ∀ (first : Bool) (p q : Printout), p.Even q →
    (s.printTail mode p first v).1.Even (s.printTail mode q first w).1

variable {mode : PrintMode}

theorem printsEven_of_node (hv : ∀ a, v ≠ .pair a) (hw : ∀ a, w ≠ .pair a)
    (hnull : v = .null ↔ w = .null)
    (h : ∀ p q : Printout, p.budget ≠ 0 → p.Even q →
      (s.printNode mode p v).1.Even (s.printNode mode q w).1) : s.PrintsEven mode v w := by
  have hnode : ∀ p q : Printout, p.Even q →
      (s.printNode mode p v).1.Even (s.printNode mode q w).1 := by
    intro p q hpq
    by_cases hp : p.budget = 0
    · rw [printNode_spent _ _ _ hp, printNode_spent _ _ _ (hpq.budget_eq ▸ hp)]
      exact hpq.add "..."
    · exact h p q hp hpq
  refine ⟨hnode, fun first p q hpq => ?_⟩
  by_cases hn : v = .null
  · obtain rfl := hn
    obtain rfl := hnull.mp rfl
    rwa [printTail_null, printTail_null]
  · rw [printTail_dotted _ _ _ _ hv hn, printTail_dotted _ _ _ _ hw (hn ∘ hnull.mpr)]
    exact hnode _ _ (hpq.add " . ")

theorem printsEven_leaf (hv : Leaf v) (h : v.same w) : s.PrintsEven mode v w := by
  have hw := hv.of_same h
  refine printsEven_of_node hv.1 hw.1 ?_ fun p q hp hpq => ?_
  · cases v <;> cases w <;> simp_all [Value.same, Value.eqv]
  · rw [printNode_leaf _ _ _ hv hp, printNode_leaf _ _ _ hw (hpq.budget_eq ▸ hp),
      atomText_same hv h]
    exact hpq.spend.add _

theorem printsEven_pair {a b : Address}
    (hcar : s.PrintsEven mode (s.pairAt a).car (s.pairAt b).car)
    (hcdr : s.PrintsEven mode (s.pairAt a).cdr (s.pairAt b).cdr) :
    s.PrintsEven mode (.pair a) (.pair b) := by
  have htail : ∀ (first : Bool) (p q : Printout), p.Even q →
      (s.printTail mode p first (.pair a)).1.Even (s.printTail mode q first (.pair b)).1 := by
    intro first p q hpq
    by_cases hp : p.budget = 0
    · rw [printTail_spent _ _ _ _ hp, printTail_spent _ _ _ _ (hpq.budget_eq ▸ hp)]
      exact (hpq.separate first).add "..."
    · rw [printTail_pair _ _ _ _ hp, printTail_pair _ _ _ _ (hpq.budget_eq ▸ hp)]
      exact hcdr.tail false _ _ (hcar.node _ _ (hpq.separate first))
  refine ⟨fun p q hpq => ?_, htail⟩
  by_cases hp : p.budget = 0
  · rw [printNode_spent _ _ _ hp, printNode_spent _ _ _ (hpq.budget_eq ▸ hp)]
    exact hpq.add "..."
  · rw [printNode_pair _ _ _ hp, printNode_pair _ _ _ (hpq.budget_eq ▸ hp)]
    exact (htail true _ _ (hpq.spend.add "(")).add ")"

theorem printItems_even {vs ws : List Value} (h : List.Forall₂ (s.PrintsEven mode) vs ws)
    (first : Bool) {p q : Printout} (hpq : p.Even q) :
    (s.printItems mode p first vs).1.Even (s.printItems mode q first ws).1 := by
  induction h generalizing first p q with
  | nil => rwa [printItems_nil, printItems_nil]
  | cons hitem _ ih =>
    by_cases hp : p.budget = 0
    · rw [printItems_spent _ _ _ _ hp, printItems_spent _ _ _ _ (hpq.budget_eq ▸ hp)]
      exact (hpq.separate first).add "..."
    · rw [printItems_cons _ _ _ _ hp, printItems_cons _ _ _ _ (hpq.budget_eq ▸ hp)]
      exact ih false (hitem.node _ _ (hpq.separate first))

theorem printsEven_vector {a b : Address}
    (h : List.Forall₂ (s.PrintsEven mode) (s.vectorAt a).toList (s.vectorAt b).toList) :
    s.PrintsEven mode (.vector a) (.vector b) := by
  refine printsEven_of_node (by simp) (by simp) (by simp) fun p q hp hpq => ?_
  rw [printNode_vector _ _ _ hp, printNode_vector _ _ _ (hpq.budget_eq ▸ hp)]
  exact (printItems_even h true ((hpq.spend.add "#(").enter a b)).add ")"

theorem Equal.printsEven (h : s.Equal v w) : s.PrintsEven mode v w := by
  induction h with
  | leaf hv h => exact printsEven_leaf hv h
  | pair _ _ hcar hcdr => exact printsEven_pair hcar hcdr
  | vector hsize _ ih =>
    exact printsEven_vector (List.forall₂_iff_zip.mpr ⟨hsize, ih _ _⟩)

theorem Equal.print (h : s.Equal v w) : (s.print mode v).Even (s.print mode w) :=
  h.printsEven.node _ _ ⟨rfl, rfl⟩

/-! ## The laws of the comparison -/

/-- What holds of the comparison at three values. -/
structure EqualityLaws (s : Store) (a b c : Value) : Prop where
  /-- The comparison answers, as the plain recursion does. -/
  decides : s.equal? a b = some true ∧ s.Equal a b ∨ s.equal? a b = some false ∧ ¬ s.Equal a b
  refl : s.equal? a a = some true
  symm : s.equal? b a = s.equal? a b
  trans : s.equal? a b = some true → s.equal? b c = some true → s.equal? a c = some true
  of_eqv : a.eqv b → s.equal? a b = some true
  writeText : s.equal? a b = some true → s.writeText a = s.writeText b
  displayText : s.equal? a b = some true → s.displayText a = s.displayText b
  debugText : s.equal? a b = some true → s.debugText a = s.debugText b

theorem equal?_comm (ha : s.Tree a) (hb : s.Tree b) : s.equal? b a = s.equal? a b := by
  rcases equal?_decides ha b with ⟨hab, h⟩ | ⟨hab, h⟩ <;>
    rcases equal?_decides hb a with ⟨hba, k⟩ | ⟨hba, k⟩
  · rw [hab, hba]
  · exact absurd h.symm k
  · exact absurd k.symm h
  · rw [hab, hba]

/-- On acyclic values structural equality is the equivalence of its plain recursion. It contains
identity, and equal values have the same texts. -/
theorem equal?_laws (ha : s.Tree a) (hb : s.Tree b) : s.EqualityLaws a b c where
  decides := equal?_decides ha b
  refl := (equal?_iff ha).mpr (.refl ha)
  symm := equal?_comm ha hb
  trans hab hbc :=
    (equal?_iff ha).mpr (((equal?_iff ha).mp hab).trans ((equal?_iff hb).mp hbc))
  of_eqv h := (equal?_iff ha).mpr (.of_eqv ha h)
  writeText h := ((equal?_iff ha).mp h).print.text_eq
  displayText h := ((equal?_iff ha).mp h).print.text_eq
  debugText h := ((equal?_iff ha).mp h).print.text_eq

def sharing : Store :=
  { empty with
    pairs := #[⟨.vector 0, .vector 0⟩, ⟨.vector 0, .vector 1⟩]
    vectors := #[#[.string ⟨0, "x"⟩], #[.string ⟨1, "x"⟩]] }

theorem equal?_laws_sharing : sharing.Tree (.pair 0) ∧ sharing.Tree (.pair 1) ∧
    sharing.EqualityLaws (.pair 0) (.pair 1) (.pair 0) ∧
    sharing.equal? (.pair 0) (.pair 1) = some true := by
  have hstring : ∀ x, sharing.Tree (.string x) := fun x => .leaf (by simp) (by simp)
  have hzero : sharing.Tree (.vector 0) :=
    .vector (by decide) (by simpa [vectorAt, sharing] using hstring _)
  have hone : sharing.Tree (.vector 1) :=
    .vector (by decide) (by simpa [vectorAt, sharing] using hstring _)
  have hleft : sharing.Tree (.pair 0) := .pair (by decide) hzero hzero
  have hright : sharing.Tree (.pair 1) := .pair (by decide) hzero hone
  have hitems : sharing.Equal (.vector 0) (.vector 1) :=
    Equal.vector_iff.mpr (.cons (.leaf ⟨by simp, by simp⟩ rfl) .nil)
  exact ⟨hleft, hright, equal?_laws hleft hright,
    (equal?_iff hleft).mpr (.pair (.refl hzero) hitems)⟩

end Store
end HygienicScheme
