import HygienicScheme.Proofs.Store.Slots
import HygienicScheme.Store.Printer

/-!
# Layouts of printed values

A layout is what a text of a value is made of: a text of its own, or the items of a list or of a
vector between brackets, where the mark of the budget may stand for the items or for the dotted
tail that are left. Every bracket of a layout is closed, since it is closed by its very shape.

Of one value there are many layouts, and all of them are cut from the one without marks, if there
is such a one. A layout that is cut has fewer nodes, and its text differs from that of the whole:
behind the mark comes a closing bracket at once, so whatever the mark stands for would have to be
written as the mark is. The only such thing is a single node, and that is why a text does not
always tell whether it was cut.
-/
namespace HygienicScheme

mutual

/-- What is printed of a value. -/
inductive Layout
  | atom (text : List Char)
  | list (row : Row)
  | vector (row : Row)

/-- What is printed between two brackets. A mark stands for one item or more, or for what a list
ends in. -/
inductive Row
  | nil
  | cut
  | dotted (tail : Layout)
  | dottedCut
  | cons (item : Layout) (more : Row)

end

def mark : List Char := ['.', '.', '.']

def blankUnless (first : Bool) : List Char := if first then [] else [' ']

mutual

def Layout.text : Layout → List Char
  | .atom text => text
  | .list row => '(' :: (row.text true ++ [')'])
  | .vector row => '#' :: '(' :: (row.text true ++ [')'])

def Row.text (first : Bool) : Row → List Char
  | .nil => []
  | .cut => blankUnless first ++ mark
  | .dotted tail => [' ', '.', ' '] ++ tail.text
  | .dottedCut => [' ', '.', ' '] ++ mark
  | .cons item more => blankUnless first ++ (item.text ++ more.text false)

end

mutual

/-- One node for the value itself, and those of its items and of its dotted tail. -/
def Layout.nodes : Layout → Nat
  | .atom _ => 1
  | .list row => row.nodes + 1
  | .vector row => row.nodes + 1

def Row.nodes : Row → Nat
  | .nil => 0
  | .cut => 0
  | .dotted tail => tail.nodes
  | .dottedCut => 0
  | .cons item more => item.nodes + more.nodes

end

mutual

def Layout.Whole : Layout → Prop
  | .atom _ => True
  | .list row => row.Whole
  | .vector row => row.Whole

def Row.Whole : Row → Prop
  | .nil => True
  | .cut => False
  | .dotted tail => tail.Whole
  | .dottedCut => False
  | .cons item more => item.Whole ∧ more.Whole

end

mutual

def Layout.fill : Layout → Layout
  | .atom text => .atom text
  | .list row => .list row.fill
  | .vector row => .vector row.fill

def Row.fill : Row → Row
  | .nil => .nil
  | .cut => .cons (.atom mark) .nil
  | .dotted tail => .dotted tail.fill
  | .dottedCut => .dotted (.atom mark)
  | .cons item more => .cons item.fill more.fill

end

mutual

inductive Layout.Cut : Layout → Layout → Prop
  | atom {text : List Char} : Layout.Cut (.atom text) (.atom text)
  | list {row row' : Row} (h : Row.Cut row row') : Layout.Cut (.list row) (.list row')
  | vector {row row' : Row} (h : Row.Cut row row') : Layout.Cut (.vector row) (.vector row')

inductive Row.Cut : Row → Row → Prop
  | nil : Row.Cut .nil .nil
  | cut {item : Layout} {more : Row} : Row.Cut .cut (.cons item more)
  | dotted {tail tail' : Layout} (h : Layout.Cut tail tail') :
      Row.Cut (.dotted tail) (.dotted tail')
  | dottedCut {tail : Layout} : Row.Cut .dottedCut (.dotted tail)
  | cons {item item' : Layout} {more more' : Row} (hitem : Layout.Cut item item')
      (hmore : Row.Cut more more') : Row.Cut (.cons item more) (.cons item' more')

end

/-! ### Nodes -/

theorem Layout.nodes_pos (l : Layout) : 0 < l.nodes := by
  cases l <;> simp [Layout.nodes]

mutual

theorem Layout.Cut.eq_of_whole {l t : Layout} (h : l.Cut t) (hl : l.Whole) : l = t :=
  match h with
  | .atom => rfl
  | .list hrow => congrArg Layout.list (hrow.eq_of_whole hl)
  | .vector hrow => congrArg Layout.vector (hrow.eq_of_whole hl)

theorem Row.Cut.eq_of_whole {row row' : Row} (h : row.Cut row') (hrow : row.Whole) : row = row' :=
  match h with
  | .nil => rfl
  | .dotted htail => congrArg Row.dotted (htail.eq_of_whole hrow)
  | .cons hitem hmore =>
    congrArg₂ Row.cons (hitem.eq_of_whole hrow.1) (hmore.eq_of_whole hrow.2)

end

mutual

theorem Layout.Cut.nodes_le {l t : Layout} (h : l.Cut t) : l.nodes ≤ t.nodes :=
  match h with
  | .atom => Nat.le_refl _
  | .list hrow => Nat.succ_le_succ hrow.nodes_le
  | .vector hrow => Nat.succ_le_succ hrow.nodes_le

theorem Row.Cut.nodes_le {row row' : Row} (h : row.Cut row') : row.nodes ≤ row'.nodes :=
  match h with
  | .nil => Nat.le_refl _
  | .cut => Nat.zero_le _
  | .dotted htail => htail.nodes_le
  | .dottedCut => Nat.zero_le _
  | .cons hitem hmore => Nat.add_le_add hitem.nodes_le hmore.nodes_le

end

mutual

theorem Layout.Cut.nodes_lt {l t : Layout} (h : l.Cut t) (hl : ¬ l.Whole) : l.nodes < t.nodes :=
  match h with
  | .atom => absurd trivial hl
  | .list hrow => Nat.succ_lt_succ (hrow.nodes_lt hl)
  | .vector hrow => Nat.succ_lt_succ (hrow.nodes_lt hl)

theorem Row.Cut.nodes_lt {row row' : Row} (h : row.Cut row') (hrow : ¬ row.Whole) :
    row.nodes < row'.nodes :=
  match h with
  | .nil => absurd trivial hrow
  | .cut => Nat.lt_of_lt_of_le (Layout.nodes_pos _) (Nat.le_add_right _ _)
  | .dotted htail => htail.nodes_lt hrow
  | .dottedCut => Layout.nodes_pos _
  | @Row.Cut.cons item _ _ _ hitem hmore => by
    by_cases hwhole : item.Whole
    · exact Nat.add_lt_add_of_le_of_lt hitem.nodes_le
        (hmore.nodes_lt fun h => hrow ⟨hwhole, h⟩)
    · exact Nat.add_lt_add_of_lt_of_le (hitem.nodes_lt hwhole) hmore.nodes_le

end

/-! ### Texts -/

mutual

theorem Layout.fill_text : (l : Layout) → l.fill.text = l.text
  | .atom _ => rfl
  | .list row => by rw [Layout.fill, Layout.text, Layout.text, row.fill_text true]
  | .vector row => by rw [Layout.fill, Layout.text, Layout.text, row.fill_text true]

theorem Row.fill_text (first : Bool) : (row : Row) → row.fill.text first = row.text first
  | .nil => rfl
  | .cut => by simp [Row.fill, Row.text, Layout.text]
  | .dotted tail => by rw [Row.fill, Row.text, Row.text, tail.fill_text]
  | .dottedCut => rfl
  | .cons item more => by rw [Row.fill, Row.text, Row.text, item.fill_text, more.fill_text false]

end

mutual

theorem Layout.fill_of_whole : (l : Layout) → l.Whole → l.fill = l
  | .atom _, _ => rfl
  | .list row, h => congrArg Layout.list (row.fill_of_whole h)
  | .vector row, h => congrArg Layout.vector (row.fill_of_whole h)

theorem Row.fill_of_whole : (row : Row) → row.Whole → row.fill = row
  | .nil, _ => rfl
  | .dotted tail, h => congrArg Row.dotted (tail.fill_of_whole h)
  | .cons item more, h =>
    congrArg₂ Row.cons (item.fill_of_whole h.1) (more.fill_of_whole h.2)

end

mutual

theorem Layout.mark_infix : (l : Layout) → ¬ l.Whole → mark <:+: l.text
  | .atom _, h => absurd trivial h
  | .list row, h => (row.mark_infix true h).trans ⟨['('], [')'], rfl⟩
  | .vector row, h => (row.mark_infix true h).trans ⟨['#', '('], [')'], rfl⟩

theorem Row.mark_infix (first : Bool) : (row : Row) → ¬ row.Whole → mark <:+: row.text first
  | .nil, h => absurd trivial h
  | .cut, _ => (List.suffix_append _ _).isInfix
  | .dotted tail, h => (tail.mark_infix h).trans (List.suffix_append _ _).isInfix
  | .dottedCut, _ => (List.suffix_append _ _).isInfix
  | .cons item more, h => by
    have hinner : mark <:+: item.text ++ more.text false := by
      by_cases hitem : item.Whole
      · exact (more.mark_infix false fun hmore => h ⟨hitem, hmore⟩).trans
          (List.suffix_append _ _).isInfix
      · exact (item.mark_infix hitem).trans (List.prefix_append _ _).isInfix
    exact hinner.trans (List.suffix_append _ _).isInfix

end

mutual

theorem Layout.Cut.count_le {l t : Layout} (h : l.Cut t) : l.text.count ')' ≤ t.text.count ')' :=
  match h with
  | .atom => Nat.le_refl _
  | .list hrow => by simpa [Layout.text] using hrow.count_le true
  | .vector hrow => by simpa [Layout.text] using hrow.count_le true

theorem Row.Cut.count_le {row row' : Row} (h : row.Cut row') (first : Bool) :
    (row.text first).count ')' ≤ (row'.text first).count ')' :=
  match h with
  | .nil => Nat.le_refl _
  | .cut => by cases first <;> simp [Row.text, blankUnless, mark]
  | .dotted htail => by simpa [Row.text] using htail.count_le
  | .dottedCut => by simp [Row.text, mark]
  | .cons hitem hmore => by
    simpa [Row.text] using Nat.add_le_add hitem.count_le (hmore.count_le false)

end

theorem eq_of_closed {x y after after' : List Char} (hx : ')' ∉ x) (hy : ')' ∉ y)
    (h : x ++ ')' :: after = y ++ ')' :: after') : x = y ∧ after = after' := by
  induction x generalizing y with
  | nil =>
    cases y with
    | nil => exact ⟨rfl, List.tail_eq_of_cons_eq h⟩
    | cons c y =>
      obtain rfl := List.head_eq_of_cons_eq h
      simp at hy
  | cons c x ih =>
    cases y with
    | nil =>
      obtain rfl := List.head_eq_of_cons_eq h
      simp at hx
    | cons c' y =>
      obtain ⟨rfl, hmore⟩ := List.cons.inj h
      obtain ⟨rfl, hafter⟩ := ih (fun h => hx (List.mem_cons_of_mem _ h))
        (fun h => hy (List.mem_cons_of_mem _ h)) hmore
      exact ⟨rfl, hafter⟩

theorem closed_of_mark {x after after' : List Char} (h : mark ++ ')' :: after = x ++ ')' :: after')
    (hcount : after.count ')' ≤ after'.count ')') : x = mark ∧ after = after' := by
  have hx : ')' ∉ x := by
    have htotal := congrArg (List.count ')') h
    rw [List.count_append, List.count_append, List.count_cons_self, List.count_cons_self,
      show mark.count ')' = 0 from rfl] at htotal
    exact List.count_eq_zero.mp (by omega)
  obtain ⟨hmark, hafter⟩ := eq_of_closed (by decide) hx h
  exact ⟨hmark.symm, hafter⟩

theorem Layout.eq_atom_of_mark {l : Layout} (h : l.text = mark) : l = .atom mark := by
  cases l with
  | atom text => rw [← h, Layout.text]
  | list row => simp [Layout.text, mark] at h
  | vector row => simp [Layout.text, mark] at h

theorem Row.eq_nil_of_blankless {row : Row} (h : ' ' ∉ row.text false) : row = .nil := by
  cases row <;> simp_all [Row.text, blankUnless]

mutual

/-- A text that is cut reads as the whole does only if a node written as the mark stands wherever
the mark does. -/
theorem Layout.Cut.fill_eq {l t : Layout} (h : l.Cut t) {after after' : List Char}
    (htext : l.text ++ after = t.text ++ after') (hcount : after.count ')' ≤ after'.count ')') :
    l.fill = t ∧ after = after' :=
  match h with
  | .atom => ⟨rfl, List.append_cancel_left htext⟩
  | .list hrow => by
    obtain ⟨hfill, hafter⟩ := hrow.fill_eq true (by simpa [Layout.text] using htext) hcount
    exact ⟨congrArg Layout.list hfill, hafter⟩
  | .vector hrow => by
    obtain ⟨hfill, hafter⟩ := hrow.fill_eq true (by simpa [Layout.text] using htext) hcount
    exact ⟨congrArg Layout.vector hfill, hafter⟩

theorem Row.Cut.fill_eq {row row' : Row} (h : row.Cut row') (first : Bool)
    {after after' : List Char}
    (htext : row.text first ++ ')' :: after = row'.text first ++ ')' :: after')
    (hcount : after.count ')' ≤ after'.count ')') : row.fill = row' ∧ after = after' :=
  match h with
  | .nil => ⟨rfl, List.tail_eq_of_cons_eq htext⟩
  | @Row.Cut.cut item more => by
    have hrest : mark ++ ')' :: after = (item.text ++ more.text false) ++ ')' :: after' := by
      simpa [Row.text] using htext
    obtain ⟨hmark, hafter⟩ := closed_of_mark hrest hcount
    -- A second item would have a blank before it.
    obtain rfl : more = .nil := Row.eq_nil_of_blankless fun hblank =>
      absurd (hmark ▸ List.mem_append_right _ hblank) (by decide)
    rw [Row.text, List.append_nil] at hmark
    rw [Layout.eq_atom_of_mark hmark]
    exact ⟨rfl, hafter⟩
  | .dotted htail => by
    obtain ⟨hfill, hafter⟩ := htail.fill_eq (by simpa [Row.text] using htext)
      (by simpa using hcount)
    exact ⟨congrArg Row.dotted hfill, List.tail_eq_of_cons_eq hafter⟩
  | .dottedCut => by
    obtain ⟨hmark, hafter⟩ := closed_of_mark (by simpa [Row.text] using htext) hcount
    exact ⟨congrArg Row.dotted (Layout.eq_atom_of_mark hmark).symm, hafter⟩
  | .cons hitem hmore => by
    -- The item can be taken off both texts: what follows it closes no more brackets if it is cut.
    have hbehind := hmore.count_le false
    obtain ⟨hfill, hrest⟩ := hitem.fill_eq (by simpa [Row.text] using htext)
      (by simp only [List.count_append, List.count_cons_self]; omega)
    obtain ⟨hmorefill, hafter⟩ := hmore.fill_eq false hrest hcount
    exact ⟨congrArg₂ Row.cons hfill hmorefill, hafter⟩

end

/-- A cut shows in the text, unless each mark stands for one node that is written as the mark. -/
theorem Layout.Cut.text_eq_iff {l t : Layout} (h : l.Cut t) : l.text = t.text ↔ l.fill = t := by
  refine ⟨fun htext => ?_, fun hfill => ?_⟩
  · exact (h.fill_eq (congrArg (· ++ []) htext) (Nat.le_refl _)).1
  · rw [← hfill, l.fill_text]

/-! ### Rows of single nodes -/

def Row.ofTexts (texts : List (List Char)) : Row :=
  texts.foldr (fun text row => .cons (.atom text) row) .nil

theorem Row.nodes_ofTexts (texts : List (List Char)) :
    (Row.ofTexts texts).nodes = texts.length := by
  induction texts with
  | nil => rfl
  | cons text texts ih =>
    have hcons : (Row.ofTexts (text :: texts)).nodes = 1 + (Row.ofTexts texts).nodes := rfl
    rw [hcons, ih, List.length_cons, Nat.add_comm]

theorem Row.whole_ofTexts (texts : List (List Char)) : (Row.ofTexts texts).Whole := by
  induction texts with
  | nil => trivial
  | cons text texts ih => exact ⟨trivial, ih⟩

/-- Where just the last node is cut off and that is written as the mark, nothing shows it. -/
theorem Row.Cut.fill_ofTexts {row : Row} {texts : List (List Char)}
    (h : row.Cut (.ofTexts (texts ++ [mark]))) (hnodes : row.nodes = texts.length) :
    row.fill = .ofTexts (texts ++ [mark]) := by
  induction texts generalizing row with
  | nil =>
    cases h with
    | cut => rfl
    | cons hitem hmore =>
      cases hitem
      simp [Row.nodes, Layout.nodes] at hnodes
  | cons text texts ih =>
    cases h with
    | cut => cases hnodes
    | cons hitem hmore =>
      cases hitem
      have hcount : Layout.nodes (.atom text) = 1 := rfl
      rw [Row.nodes, hcount, List.length_cons] at hnodes
      exact congrArg (Row.cons (.atom text)) (ih hmore (by omega))

end HygienicScheme
