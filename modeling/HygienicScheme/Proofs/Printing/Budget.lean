import HygienicScheme.Proofs.Printing.Layouts
import HygienicScheme.Proofs.Printing.Written

/-!
# Printing within a budget

What is printed of a value is the text of one of its layouts, with one node for each unit of the
budget that was spent, and the layout is whole or the budget is used up. That is what a step of the
printer keeps, whatever the store holds. If the unfolding of the value ends, the layout is cut from
it; hence the layout is the whole unfolding exactly if that has no more nodes than the budget.
-/
namespace HygienicScheme.Store

mutual

/-- The layout is one of the value. -/
inductive Shows (s : Store) (mode : PrintMode) : Value → Layout → Prop
  | leaf {v : Value} (hv : Leaf v) : Shows s mode v (.atom (s.atomText mode v).toList)
  | list {a : Address} {row : Row} (h : ShowsTail s mode (.pair a) row) :
      Shows s mode (.pair a) (.list row)
  | vector {a : Address} {row : Row} (h : ShowsItems s mode (s.vectorAt a).toList row) :
      Shows s mode (.vector a) (.vector row)

inductive ShowsTail (s : Store) (mode : PrintMode) : Value → Row → Prop
  | null : ShowsTail s mode .null .nil
  | cut {a : Address} : ShowsTail s mode (.pair a) .cut
  | pair {a : Address} {item : Layout} {more : Row} (hcar : Shows s mode (s.pairAt a).car item)
      (hcdr : ShowsTail s mode (s.pairAt a).cdr more) :
      ShowsTail s mode (.pair a) (.cons item more)
  | dotted {v : Value} {tail : Layout} (hp : ∀ a, v ≠ .pair a) (hn : v ≠ .null)
      (h : Shows s mode v tail) : ShowsTail s mode v (.dotted tail)
  | dottedCut {v : Value} (hp : ∀ a, v ≠ .pair a) (hn : v ≠ .null) :
      ShowsTail s mode v .dottedCut

inductive ShowsItems (s : Store) (mode : PrintMode) : List Value → Row → Prop
  | nil : ShowsItems s mode [] .nil
  | cut {v : Value} {vs : List Value} : ShowsItems s mode (v :: vs) .cut
  | cons {v : Value} {vs : List Value} {item : Layout} {more : Row} (hitem : Shows s mode v item)
      (hmore : ShowsItems s mode vs more) : ShowsItems s mode (v :: vs) (.cons item more)

end

/-- The layout of the value without a mark: its unfolding to the very end. -/
structure Unfolding (s : Store) (mode : PrintMode) (v : Value) (t : Layout) : Prop where
  shows : s.Shows mode v t
  whole : t.Whole

variable {s : Store} {mode : PrintMode}

mutual

theorem Shows.cut_of_whole {v : Value} {l t : Layout} (h : s.Shows mode v l) (k : s.Shows mode v t)
    (ht : t.Whole) : l.Cut t :=
  match h with
  | .leaf hv => by
    cases k with
    | leaf => exact .atom
    | list => exact absurd rfl (hv.1 _)
    | vector => exact absurd rfl (hv.2 _)
  | .list hrow => by
    cases k with
    | leaf hv => exact absurd rfl (hv.1 _)
    | list krow => exact .list (hrow.cut_of_whole krow ht)
  | .vector hrow => by
    cases k with
    | leaf hv => exact absurd rfl (hv.2 _)
    | vector krow => exact .vector (hrow.cut_of_whole krow ht)

theorem ShowsTail.cut_of_whole {v : Value} {row row' : Row} (h : s.ShowsTail mode v row)
    (k : s.ShowsTail mode v row') (hrow : row'.Whole) : row.Cut row' :=
  match h with
  | .null => by
    cases k with
    | null => exact .nil
    | dotted _ hn | dottedCut _ hn => exact absurd rfl hn
  | .cut => by
    cases k with
    | cut => exact hrow.elim
    | pair => exact .cut
    | dotted hp | dottedCut hp => exact absurd rfl (hp _)
  | .pair hcar hcdr => by
    cases k with
    | cut => exact hrow.elim
    | pair kcar kcdr => exact .cons (hcar.cut_of_whole kcar hrow.1) (hcdr.cut_of_whole kcdr hrow.2)
    | dotted hp | dottedCut hp => exact absurd rfl (hp _)
  | .dotted hp hn htail => by
    cases k with
    | null => exact absurd rfl hn
    | cut | pair => exact absurd rfl (hp _)
    | dotted _ _ ktail => exact .dotted (htail.cut_of_whole ktail hrow)
    | dottedCut => exact hrow.elim
  | .dottedCut hp hn => by
    cases k with
    | null => exact absurd rfl hn
    | cut | pair => exact absurd rfl (hp _)
    | dotted => exact .dottedCut
    | dottedCut => exact hrow.elim

theorem ShowsItems.cut_of_whole {vs : List Value} {row row' : Row} (h : s.ShowsItems mode vs row)
    (k : s.ShowsItems mode vs row') (hrow : row'.Whole) : row.Cut row' :=
  match h with
  | .nil => by
    cases k with
    | nil => exact .nil
  | .cut => by
    cases k with
    | cut => exact hrow.elim
    | cons => exact .cut
  | .cons hitem hmore => by
    cases k with
    | cut => exact hrow.elim
    | cons kitem kmore =>
      exact .cons (hitem.cut_of_whole kitem hrow.1) (hmore.cut_of_whole kmore hrow.2)

end

/-! ### Which unfoldings end -/

mutual

theorem Shows.acc {v : Value} {t : Layout} (h : s.Shows mode v t) (ht : t.Whole) :
    Acc (Function.swap s.Slot) v :=
  match h with
  | .leaf hv => ⟨_, fun _ hw => absurd hw hv.not_slot⟩
  | .list hrow => hrow.acc ht
  | .vector hrow => ⟨_, fun w hw => by
    cases hw with
    | item hw => exact hrow.acc ht w hw⟩

theorem ShowsTail.acc {v : Value} {row : Row} (h : s.ShowsTail mode v row) (hrow : row.Whole) :
    Acc (Function.swap s.Slot) v :=
  match h with
  | .null => ⟨_, fun _ hw => absurd hw leaf_null.not_slot⟩
  | .pair hcar hcdr => ⟨_, fun w hw => by
    cases hw with
    | car => exact hcar.acc hrow.1
    | cdr => exact hcdr.acc hrow.2⟩
  | .dotted _ _ htail => htail.acc hrow

theorem ShowsItems.acc {vs : List Value} {row : Row} (h : s.ShowsItems mode vs row)
    (hrow : row.Whole) : ∀ v ∈ vs, Acc (Function.swap s.Slot) v :=
  match h with
  | .nil => List.forall_mem_nil _
  | .cons hitem hmore => List.forall_mem_cons.mpr ⟨hitem.acc hrow.1, hmore.acc hrow.2⟩

end

theorem exists_whole_items {vs : List Value} (h : ∀ v ∈ vs, ∃ t, s.Unfolding mode v t) :
    ∃ row, s.ShowsItems mode vs row ∧ row.Whole := by
  induction vs with
  | nil => exact ⟨.nil, .nil, trivial⟩
  | cons v vs ih =>
    obtain ⟨⟨item, hitem⟩, hvs⟩ := List.forall_mem_cons.mp h
    obtain ⟨row, hrow, hwhole⟩ := ih hvs
    exact ⟨.cons item row, .cons hitem.shows hrow, hitem.whole, hwhole⟩

theorem exists_whole_tail {v : Value} (hv : ∀ a, v ≠ .pair a) (h : ∃ t, s.Unfolding mode v t) :
    ∃ row, s.ShowsTail mode v row ∧ row.Whole := by
  obtain ⟨t, ht⟩ := h
  by_cases hn : v = .null
  · obtain rfl := hn
    exact ⟨.nil, .null, trivial⟩
  · exact ⟨.dotted t, .dotted hv hn ht.shows, ht.whole⟩

theorem pair_or_vector_or_leaf (v : Value) :
    (∃ a, v = .pair a) ∨ (∃ a, v = .vector a) ∨ Leaf v := by
  cases v with
  | pair a => exact .inl ⟨a, rfl⟩
  | vector a => exact .inr (.inl ⟨a, rfl⟩)
  | _ => exact .inr (.inr ⟨nofun, nofun⟩)

theorem exists_unfolding {v : Value} (h : Acc (Function.swap s.Slot) v) :
    (∃ t, s.Unfolding mode v t) ∧ ∃ row, s.ShowsTail mode v row ∧ row.Whole := by
  induction h with
  | intro v _ ih =>
    rcases pair_or_vector_or_leaf v with ⟨a, rfl⟩ | ⟨a, rfl⟩ | hleaf
    · obtain ⟨item, hitem⟩ := (ih _ .car).1
      obtain ⟨row, hrow, hwhole⟩ := (ih _ .cdr).2
      have htail : s.ShowsTail mode (.pair a) (.cons item row) := .pair hitem.shows hrow
      exact ⟨⟨_, .list htail, hitem.whole, hwhole⟩, _, htail, hitem.whole, hwhole⟩
    · obtain ⟨row, hrow, hwhole⟩ :=
        exists_whole_items fun w (hw : w ∈ (s.vectorAt a).toList) => (ih w (.item hw)).1
      have ht : ∃ t, s.Unfolding mode (.vector a) t := ⟨_, .vector hrow, hwhole⟩
      exact ⟨ht, exists_whole_tail nofun ht⟩
    · have ht : ∃ t, s.Unfolding mode v t := ⟨_, .leaf hleaf, trivial⟩
      exact ⟨ht, exists_whole_tail hleaf.1 ht⟩

/-- The unfolding ends exactly if no way down from the value is endless. -/
theorem exists_unfolding_iff {v : Value} :
    (∃ t, s.Unfolding mode v t) ↔ Acc (Function.swap s.Slot) v :=
  ⟨fun ⟨_, ht⟩ => ht.shows.acc ht.whole, fun h => (exists_unfolding h).1⟩

/-! ### What the printer keeps -/

structure PrintsFor (p q : Printout) (text : List Char) (nodes : Nat) (whole : Prop) : Prop
    extends Prints p q text nodes where
  whole_or_spent : whole ∨ q.budget = 0

namespace PrintsFor

variable {p q r : Printout} {text text' : List Char} {m n : Nat} {whole whole' : Prop}

theorem mark (h : Prints p q text 0) (hp : p.budget = 0) :
    PrintsFor p (q.add "...") (text ++ HygienicScheme.mark) 0 False where
  toPrints := h.trans (.add q "...")
  whole_or_spent := .inr ((h.trans (.add q "...")).budget_eq.trans hp)

theorem after (h : Prints p q text 0) (k : PrintsFor q r text' n whole) :
    PrintsFor p r (text ++ text') n whole where
  toPrints := by simpa using h.trans k.toPrints
  whole_or_spent := k.whole_or_spent

theorem trans (h : PrintsFor p q text m whole) (k : PrintsFor q r text' n whole') :
    PrintsFor p r (text ++ text') (m + n) (whole ∧ whole') where
  toPrints := h.toPrints.trans k.toPrints
  whole_or_spent := by
    have hbudget := k.budget_eq
    -- Once the budget is spent, nothing of the rest gives any back.
    rcases h.whole_or_spent with hwhole | hspent
    · exact k.whole_or_spent.imp (fun hwhole' => ⟨hwhole, hwhole'⟩) id
    · exact .inr (by omega)

theorem enclose (h : Prints p q text 1) (k : PrintsFor q r text' n whole) :
    PrintsFor p (r.add ")") (text ++ (text' ++ [')'])) (n + 1) whole where
  toPrints := h.enclose k.toPrints
  whole_or_spent := k.whole_or_spent

end PrintsFor

theorem printNode_budget_lt {p : Printout} {first : Bool} {v : Value} (hp : p.budget ≠ 0) :
    (s.printNode mode (p.separate first) v).1.budget < p.budget := by
  have hle := (s.printNode mode (p.separate first) v).2
  have hsame := p.separate_budget first
  omega

mutual

/-- A node prints a layout of its value, and so do the rest of a list and the items of a vector. -/
theorem printNode_shows (s : Store) (mode : PrintMode) (p : Printout) (v : Value)
    (hp : p.budget ≠ 0) : ∃ l, s.Shows mode v l ∧
      PrintsFor p (s.printNode mode p v).1 l.text l.nodes l.Whole := by
  rcases pair_or_vector_or_leaf v with ⟨a, rfl⟩ | ⟨a, rfl⟩ | hleaf
  · obtain ⟨row, hrow, hprints⟩ := printTail_shows s mode (p.spend.add "(") true (.pair a)
    rw [printNode_pair _ _ _ hp]
    exact ⟨.list row, .list hrow, .enclose (.spend hp "(") hprints⟩
  · obtain ⟨row, hrow, hprints⟩ :=
      printItems_shows s mode ((p.spend.add "#(").enter a) true (s.vectorAt a).toList
    rw [printNode_vector _ _ _ hp]
    exact ⟨.vector row, .vector hrow, .enclose ((Prints.spend hp "#(").enter a) hprints⟩
  · rw [printNode_leaf _ _ _ hleaf hp]
    exact ⟨_, .leaf hleaf, .spend hp _, .inl trivial⟩
termination_by (p.budget, 0)
decreasing_by all_goals
  simp only [Printout.spend, Printout.add, Printout.enter]
  exact .left _ _ (Nat.sub_one_lt hp)

theorem printTail_shows (s : Store) (mode : PrintMode) (p : Printout) (first : Bool) (v : Value) :
    ∃ row, s.ShowsTail mode v row ∧
      PrintsFor p (s.printTail mode p first v).1 (row.text first) row.nodes row.Whole := by
  by_cases hpair : ∃ a, v = .pair a
  · obtain ⟨a, rfl⟩ := hpair
    have hblank := Prints.separate p first
    by_cases hp : p.budget = 0
    · rw [printTail_spent _ _ _ _ hp]
      exact ⟨.cut, .cut, .mark hblank hp⟩
    · have hq : (p.separate first).budget ≠ 0 := by rwa [p.separate_budget]
      obtain ⟨item, hitem, hprints⟩ := printNode_shows s mode (p.separate first) (s.pairAt a).car hq
      obtain ⟨row, hrow, hmore⟩ := printTail_shows s mode
        (s.printNode mode (p.separate first) (s.pairAt a).car).1 false (s.pairAt a).cdr
      rw [printTail_pair _ _ _ _ hp]
      exact ⟨.cons item row, .pair hitem hrow, .after hblank (hprints.trans hmore)⟩
  · have hv : ∀ a, v ≠ .pair a := fun a ha => hpair ⟨a, ha⟩
    by_cases hn : v = .null
    · obtain rfl := hn
      rw [printTail_null]
      exact ⟨.nil, .null, ⟨by simp [Row.text], rfl⟩, .inl trivial⟩
    · have hpoint := Prints.add p " . "
      rw [printTail_dotted _ _ _ _ hv hn]
      by_cases hp : p.budget = 0
      · rw [printNode_spent _ _ _ (hpoint.budget_eq.trans hp)]
        exact ⟨.dottedCut, .dottedCut hv hn, .mark hpoint hp⟩
      · obtain ⟨tail, htail, hprints⟩ := printNode_shows s mode (p.add " . ") v hp
        exact ⟨.dotted tail, .dotted hv hn htail, .after hpoint hprints⟩
termination_by (p.budget, 1)
decreasing_by
  · rw [p.separate_budget]
    exact .right _ Nat.zero_lt_one
  · exact .left _ _ (printNode_budget_lt hp)
  · exact .right _ Nat.zero_lt_one

theorem printItems_shows (s : Store) (mode : PrintMode) (p : Printout) (first : Bool)
    (vs : List Value) : ∃ row, s.ShowsItems mode vs row ∧
      PrintsFor p (s.printItems mode p first vs).1 (row.text first) row.nodes row.Whole := by
  cases vs with
  | nil =>
    rw [printItems_nil]
    exact ⟨.nil, .nil, ⟨by simp [Row.text], rfl⟩, .inl trivial⟩
  | cons v vs =>
    have hblank := Prints.separate p first
    by_cases hp : p.budget = 0
    · rw [printItems_spent _ _ _ _ hp]
      exact ⟨.cut, .cut, .mark hblank hp⟩
    · have hq : (p.separate first).budget ≠ 0 := by rwa [p.separate_budget]
      obtain ⟨item, hitem, hprints⟩ := printNode_shows s mode (p.separate first) v hq
      obtain ⟨row, hrow, hmore⟩ := printItems_shows s mode
        (s.printNode mode (p.separate first) v).1 false vs
      rw [printItems_cons _ _ _ _ hp]
      exact ⟨.cons item row, .cons hitem hrow, .after hblank (hprints.trans hmore)⟩
termination_by (p.budget, 1)
decreasing_by
  · rw [p.separate_budget]
    exact .right _ Nat.zero_lt_one
  · exact .left _ _ (printNode_budget_lt hp)

end

/-! ### What is printed of any value -/

structure PrintedAs (s : Store) (mode : PrintMode) (v : Value) (budget : Nat) (text : String)
    (l : Layout) : Prop where
  shows : s.Shows mode v l
  text_eq : text.toList = l.text
  nodes_le : l.nodes ≤ budget
  whole_or_spent : l.Whole ∨ l.nodes = budget

theorem exists_printedAs (s : Store) (mode : PrintMode) (v : Value) {budget : Nat}
    (hbudget : budget ≠ 0) :
    ∃ l, s.PrintedAs mode v budget (s.printNode mode ⟨"", budget, []⟩ v).1.text l := by
  obtain ⟨l, hshows, hprints⟩ := printNode_shows s mode ⟨"", budget, []⟩ v hbudget
  have hspent := hprints.budget_eq
  dsimp only at hspent
  exact ⟨l, hshows, by simpa using hprints.text_eq, by omega,
    hprints.whole_or_spent.imp id fun _ => by omega⟩

namespace PrintedAs

variable {v : Value} {budget : Nat} {text : String} {l t : Layout}

/-- The budget reaches for the unfolding exactly if it is what was printed. -/
theorem nodes_le_iff (h : s.PrintedAs mode v budget text l) (ht : s.Unfolding mode v t) :
    t.nodes ≤ budget ↔ l = t := by
  have hcut := h.shows.cut_of_whole ht.shows ht.whole
  refine ⟨fun hnodes => ?_, fun hl => hl ▸ h.nodes_le⟩
  rcases h.whole_or_spent with hwhole | hspent
  · exact hcut.eq_of_whole hwhole
  · by_contra hne
    have hless := hcut.nodes_lt fun hwhole => hne (hcut.eq_of_whole hwhole)
    omega

theorem whole_iff (h : s.PrintedAs mode v budget text l) :
    l.Whole ↔ ∃ t, s.Unfolding mode v t ∧ t.nodes ≤ budget := by
  constructor
  · exact fun hwhole => ⟨l, ⟨h.shows, hwhole⟩, h.nodes_le⟩
  · rintro ⟨t, ht, hnodes⟩
    exact (h.nodes_le_iff ht).mp hnodes ▸ ht.whole

theorem text_eq_iff (h : s.PrintedAs mode v budget text l) (ht : s.Unfolding mode v t) :
    text.toList = t.text ↔ t.nodes ≤ budget ∨ l.fill = t := by
  have hcut := h.shows.cut_of_whole ht.shows ht.whole
  rw [h.text_eq, hcut.text_eq_iff, h.nodes_le_iff ht]
  refine ⟨.inr, fun hor => hor.elim (fun hl => ?_) id⟩
  exact (l.fill_of_whole (hl ▸ ht.whole)).trans hl

end PrintedAs

/-- How the text of a value comes from the layouts of the value. -/
structure WithinBudget (s : Store) (mode : PrintMode) (v : Value) (text : List Char) (l : Layout) :
    Prop where
  /-- Of the layout nodes are printed, and marks where the budget ends; its brackets are closed. -/
  shows : s.Shows mode v l
  text_eq : text = l.text
  nodes_le : l.nodes ≤ printBudget
  /-- There is no mark exactly if the unfolding ends within the budget. -/
  whole_iff : l.Whole ↔ ∃ t, s.Unfolding mode v t ∧ t.nodes ≤ printBudget
  marked : ¬ l.Whole → mark <:+: text
  /-- The whole is printed exactly if it has no more nodes than the budget, and the text is that
  of the whole if so, or if what is left out at every mark is one node written as the mark. -/
  complete_iff : ∀ t, s.Unfolding mode v t → (t.nodes ≤ printBudget ↔ l = t)
  text_eq_iff : ∀ t, s.Unfolding mode v t → (text = t.text ↔ t.nodes ≤ printBudget ∨ l.fill = t)
  /-- On every budget that reaches for it the whole is printed. -/
  unbudgeted : ∀ t, s.Unfolding mode v t → ∀ budget, t.nodes ≤ budget →
    (s.printNode mode ⟨"", budget, []⟩ v).1.text.toList = t.text
  /-- There is a whole unless some way down from the value is endless. -/
  unfolds_iff : (∃ t, s.Unfolding mode v t) ↔ Acc (Function.swap s.Slot) v

/-- In every store, with circles or without, at most as many nodes as the budget has are printed of
a value: all of them if there are no more, and else marks for what is left, every bracket closed. -/
theorem print_within_budget (s : Store) (mode : PrintMode) (v : Value) :
    ∃ l, s.WithinBudget mode v (s.print mode v).text.toList l := by
  obtain ⟨l, hl⟩ := exists_printedAs s mode v (show printBudget ≠ 0 by decide)
  refine ⟨l, hl.shows, hl.text_eq, hl.nodes_le, hl.whole_iff, fun hmark => ?_,
    fun t ht => hl.nodes_le_iff ht, fun t ht => hl.text_eq_iff ht, fun t ht budget hnodes => ?_,
    exists_unfolding_iff⟩
  · exact hl.text_eq ▸ l.mark_infix hmark
  · have hpos := t.nodes_pos
    obtain ⟨l', hl'⟩ := exists_printedAs s mode v (show budget ≠ 0 by omega)
    exact (hl'.text_eq_iff ht).mpr (.inl hnodes)

theorem showsItems_leaves {vs : List Value} (h : ∀ v ∈ vs, Leaf v) :
    s.ShowsItems mode vs (.ofTexts (vs.map fun v => (s.atomText mode v).toList)) := by
  induction vs with
  | nil => exact .nil
  | cons v vs ih =>
    obtain ⟨hv, hvs⟩ := List.forall_mem_cons.mp h
    exact .cons (.leaf hv) (ih hvs)

/-- A vector of single nodes, one more than the budget, whose last is written as the mark: its text
is that of the whole. -/
theorem exists_longer_unfolding {a : Address} {vs : List Value} {last : Value}
    (hitems : (s.vectorAt a).toList = vs ++ [last]) (hleaf : ∀ v ∈ vs ++ [last], Leaf v)
    (hlast : (s.atomText mode last).toList = mark) (hlength : vs.length + 1 = printBudget) :
    ∃ t, s.Unfolding mode (.vector a) t ∧ printBudget < t.nodes ∧
      (s.print mode (.vector a)).text.toList = t.text := by
  let texts := vs.map fun v => (s.atomText mode v).toList
  have hrow : s.ShowsItems mode (s.vectorAt a).toList (.ofTexts (texts ++ [mark])) := by
    have hshows : s.ShowsItems mode _ _ := showsItems_leaves hleaf
    rwa [List.map_append, List.map_singleton, hlast, ← hitems] at hshows
  have ht : s.Unfolding mode (.vector a) (.vector (.ofTexts (texts ++ [mark]))) :=
    ⟨.vector hrow, Row.whole_ofTexts _⟩
  have hnodes : (Layout.vector (.ofTexts (texts ++ [mark]))).nodes = printBudget + 1 := by
    rw [Layout.nodes, Row.nodes_ofTexts, List.length_append, List.length_map, List.length_singleton,
      hlength]
  obtain ⟨l, hl⟩ := exists_printedAs s mode (.vector a) (show printBudget ≠ 0 by decide)
  refine ⟨_, ht, by omega, (hl.text_eq_iff ht).mpr (.inr ?_)⟩
  have hne : l ≠ .vector (.ofTexts (texts ++ [mark])) := fun heq =>
    absurd ((hl.nodes_le_iff ht).mpr heq) (by omega)
  cases hl.shows.cut_of_whole ht.shows ht.whole with
  | @vector row _ hcut =>
    have hspent : (Layout.vector row).nodes = printBudget :=
      hl.whole_or_spent.resolve_left fun hwhole =>
        hne (congrArg Layout.vector (hcut.eq_of_whole hwhole))
    rw [Layout.nodes] at hspent
    exact congrArg Layout.vector (hcut.fill_ofTexts (by rw [List.length_map]; omega))

/-- As many items as the budget has nodes; the last is a symbol that is written as the mark. -/
def lookalike : Store :=
  let items : List Value := .replicate (printBudget - 1) (.int 0) ++ [.name "..."]
  { empty with vectors := #[items.toArray] }

/-- Of a vector with a node too many the text is that of the whole. -/
theorem print_lookalike : ¬ ∀ t, lookalike.Unfolding .write (.vector 0) t →
    ((lookalike.print .write (.vector 0)).text.toList = t.text ↔ t.nodes ≤ printBudget) := by
  intro hclaim
  have hleaf : ∀ v ∈ List.replicate (printBudget - 1) (Value.int 0) ++ [.name "..."], Leaf v := by
    intro v hv
    rcases List.mem_append.mp hv with hv | hv
    · obtain rfl := List.eq_of_mem_replicate hv
      exact ⟨nofun, nofun⟩
    · obtain rfl := List.mem_singleton.mp hv
      exact ⟨nofun, nofun⟩
  obtain ⟨t, ht, hnodes, htext⟩ : ∃ t, lookalike.Unfolding .write (.vector 0) t ∧
      printBudget < t.nodes ∧ (lookalike.print .write (.vector 0)).text.toList = t.text :=
    exists_longer_unfolding (by simp [vectorAt, lookalike]) hleaf rfl
      (by rw [List.length_replicate]; rfl)
  exact Nat.not_le.mpr hnodes ((hclaim t ht).mp htext)

end HygienicScheme.Store
