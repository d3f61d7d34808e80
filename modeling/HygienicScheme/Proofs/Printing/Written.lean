import HygienicScheme.Proofs.Store.Holding
import HygienicScheme.Proofs.Store.Slots
import HygienicScheme.Store.Printer

/-!
# What is printed of data

The written text of a datum is defined without a budget, together with the number of nodes that
printing it spends. A value that holds a datum of no more nodes than the budget is printed as that
text and spends exactly so many. Hence the text depends only on the datum, not on how its parts
are shared or where in the store they lie.
-/
namespace HygienicScheme

namespace Datum

def atomText : Datum → List Char
  | null => ['(', ')']
  | bool b => ['#', if b then 't' else 'f']
  | int n => (toString n.toInt).toList
  | float x => (Decimal.written x).toList
  | char c => (Store.charText .write c).toList
  | string text => (Store.stringText .write text).toList
  | symbol x => x.name.toList
  | pair .. | vector _ => []

mutual

def written (d : Datum) : List Char :=
  match d with
  | pair car cdr => '(' :: (car.written ++ (cdr.writtenTail ++ [')']))
  | vector items => '#' :: '(' :: ((writtenItems items).drop 1 ++ [')'])
  | d => d.atomText
termination_by (sizeOf d, 0)

def writtenTail (d : Datum) : List Char :=
  match d with
  | null => []
  | pair car cdr => ' ' :: (car.written ++ cdr.writtenTail)
  | d => ' ' :: '.' :: ' ' :: d.written
termination_by (sizeOf d, 1)

def writtenItems (items : List Datum) : List Char :=
  match items with
  | [] => []
  | d :: more => ' ' :: (d.written ++ writtenItems more)
termination_by (sizeOf items, 0)

end

mutual

/-- One node for the value itself, and those of its items and of its dotted tail. -/
def nodes (d : Datum) : Nat :=
  match d with
  | pair car cdr => car.nodes + cdr.tailNodes + 1
  | vector items => (items.map nodes).sum + 1
  | _ => 1
termination_by (sizeOf d, 0)

def tailNodes (d : Datum) : Nat :=
  match d with
  | null => 0
  | pair car cdr => car.nodes + cdr.tailNodes
  | d => d.nodes
termination_by (sizeOf d, 1)

end

theorem nodes_pos (d : Datum) : 0 < d.nodes := by
  cases d <;> simp [nodes]

end Datum

namespace Store

/-! ### One step of the printer -/

section Steps

variable (s : Store) (mode : PrintMode) (p : Printout) (first : Bool)

def Printout.separate (p : Printout) (first : Bool) : Printout := if first then p else p.add " "

theorem Printout.separate_budget : (p.separate first).budget = p.budget := by
  cases first <;> rfl

theorem printNode_spent {v : Value} (h : p.budget = 0) :
    (s.printNode mode p v).1 = p.add "..." := by
  unfold printNode
  simp only [h, dite_true]

theorem printNode_leaf {v : Value} (hv : Leaf v) (h : p.budget ≠ 0) :
    (s.printNode mode p v).1 = p.spend.add (s.atomText mode v) := by
  cases v with
  | pair a => exact absurd rfl (hv.1 a)
  | vector a => exact absurd rfl (hv.2 a)
  | _ => simp [printNode, h]

theorem printNode_pair {a : Address} (h : p.budget ≠ 0) :
    (s.printNode mode p (.pair a)).1 =
      (s.printTail mode (p.spend.add "(") true (.pair a)).1.add ")" := by
  rw [printNode]
  simp only [h, dite_false]

theorem printNode_vector {a : Address} (h : p.budget ≠ 0) :
    (s.printNode mode p (.vector a)).1 =
      (s.printItems mode ((p.spend.add "#(").enter a) true (s.vectorAt a).toList).1.add ")" := by
  rw [printNode]
  simp only [h, dite_false]

theorem printTail_null : (s.printTail mode p first .null).1 = p := by
  rw [printTail]

theorem printTail_spent {a : Address} (h : p.budget = 0) :
    (s.printTail mode p first (.pair a)).1 = (p.separate first).add "..." := by
  have hq : (if first then p else p.add " ").budget = 0 := (p.separate_budget first).trans h
  rw [printTail]
  simp only [hq, dite_true]
  rfl

theorem printTail_pair {a : Address} (h : p.budget ≠ 0) :
    (s.printTail mode p first (.pair a)).1 =
      (s.printTail mode (s.printNode mode (p.separate first) (s.pairAt a).car).1 false
        (s.pairAt a).cdr).1 := by
  have hq : (if first then p else p.add " ").budget ≠ 0 := by
    rwa [← p.separate_budget first] at h
  rw [printTail]
  simp only [hq, dite_false]
  rfl

theorem printTail_dotted {v : Value} (hp : ∀ a, v ≠ .pair a) (hn : v ≠ .null) :
    (s.printTail mode p first v).1 = (s.printNode mode (p.add " . ") v).1 := by
  cases v <;> simp_all [printTail]

theorem printItems_nil : (s.printItems mode p first []).1 = p := by
  rw [printItems]

theorem printItems_spent {v : Value} {more : List Value} (h : p.budget = 0) :
    (s.printItems mode p first (v :: more)).1 = (p.separate first).add "..." := by
  have hq : (if first then p else p.add " ").budget = 0 := (p.separate_budget first).trans h
  rw [printItems]
  simp only [hq, dite_true]
  rfl

theorem printItems_cons {v : Value} {more : List Value} (h : p.budget ≠ 0) :
    (s.printItems mode p first (v :: more)).1 =
      (s.printItems mode (s.printNode mode (p.separate first) v).1 false more).1 := by
  have hq : (if first then p else p.add " ").budget ≠ 0 := by
    rwa [← p.separate_budget first] at h
  rw [printItems]
  simp only [hq, dite_false]
  rfl

end Steps

structure Prints (p q : Printout) (text : List Char) (nodes : Nat) : Prop where
  text_eq : q.text.toList = p.text.toList ++ text
  budget_eq : q.budget + nodes = p.budget

namespace Prints

theorem trans {p q r : Printout} {text more : List Char} {m n : Nat} (h : Prints p q text m)
    (k : Prints q r more n) : Prints p r (text ++ more) (m + n) where
  text_eq := by rw [k.text_eq, h.text_eq, List.append_assoc]
  budget_eq := by have := h.budget_eq; have := k.budget_eq; omega

theorem add (p : Printout) (text : String) : Prints p (p.add text) text.toList 0 where
  text_eq := by simp [Printout.add]
  budget_eq := rfl

theorem separate (p : Printout) (first : Bool) :
    Prints p (p.separate first) (if first then [] else [' ']) 0 := by
  cases first with
  | true => exact ⟨by simp [Printout.separate], rfl⟩
  | false => exact add p " "

theorem spend {p : Printout} (h : p.budget ≠ 0) (text : String) :
    Prints p (p.spend.add text) text.toList 1 where
  text_eq := by simp [Printout.spend, Printout.add]
  budget_eq := by simp only [Printout.spend, Printout.add]; omega

theorem enter {p q : Printout} {text : List Char} {n : Nat} (h : Prints p q text n)
    (a : Address) : Prints p (q.enter a) text n :=
  ⟨h.text_eq, h.budget_eq⟩

theorem enclose {p q r : Printout} {text more : List Char} {n : Nat} (h : Prints p q text 1)
    (k : Prints q r more n) : Prints p (r.add ")") (text ++ (more ++ [')'])) (n + 1) := by
  rw [Nat.add_comm]
  exact h.trans (k.trans (.add r ")"))

end Prints

variable {s : Store}

structure PrintsDatum (s : Store) (v : Value) (d : Datum) : Prop where
  node : ∀ p : Printout, d.nodes ≤ p.budget →
    Prints p (s.printNode .write p v).1 d.written d.nodes
  tail : ∀ p : Printout, d.tailNodes ≤ p.budget →
    Prints p (s.printTail .write p false v).1 d.writtenTail d.tailNodes

theorem printsDatum_of_node {v : Value} {d : Datum} (hv : ∀ a, v ≠ .pair a) (hv' : v ≠ .null)
    (hd : ∀ car cdr, d ≠ .pair car cdr) (hd' : d ≠ .null)
    (h : ∀ p : Printout, d.nodes ≤ p.budget →
      Prints p (s.printNode .write p v).1 d.written d.nodes) : s.PrintsDatum v d where
  node := h
  tail p hp := by
    have hnodes : d.tailNodes = d.nodes := by
      cases d <;> simp_all [Datum.tailNodes]
    have htext : d.writtenTail = ' ' :: '.' :: ' ' :: d.written := by
      cases d <;> simp_all [Datum.writtenTail]
    rw [printTail_dotted _ _ _ _ hv hv', hnodes, htext]
    have hadd := Prints.add p " . "
    rw [hnodes, ← hadd.budget_eq] at hp
    simpa using hadd.trans (h _ hp)

theorem printsDatum_atom {v : Value} {d : Datum} (hv : ∀ a, v ≠ .pair a) (hv' : v ≠ .null)
    (hv'' : ∀ a, v ≠ .vector a) (hd : ∀ car cdr, d ≠ .pair car cdr) (hd' : d ≠ .null)
    (hd'' : ∀ items, d ≠ .vector items) (h : (s.atomText .write v).toList = d.atomText) :
    s.PrintsDatum v d := by
  refine printsDatum_of_node hv hv' hd hd' fun p hp => ?_
  have hnodes : d.nodes = 1 := by cases d <;> simp_all [Datum.nodes]
  have htext : d.written = d.atomText := by cases d <;> simp_all [Datum.written]
  have hpos : p.budget ≠ 0 := by omega
  rw [printNode_leaf _ _ _ ⟨hv, hv''⟩ hpos, hnodes, htext, ← h]
  exact .spend hpos _

theorem printsDatum_null : s.PrintsDatum .null .null where
  node p hp := by
    have hpos : p.budget ≠ 0 := by simp [Datum.nodes] at hp; omega
    have hleaf : Leaf .null := ⟨nofun, nofun⟩
    rw [printNode_leaf _ _ _ hleaf hpos]
    simpa [atomText, Datum.written, Datum.atomText, Datum.nodes] using Prints.spend hpos "()"
  tail p _ := by
    rw [printTail, Datum.writtenTail, Datum.tailNodes]
    exact ⟨by simp, rfl⟩

theorem prints_items {a : Address} {car cdr : Datum} (hcar : s.PrintsDatum (s.pairAt a).car car)
    (hcdr : s.PrintsDatum (s.pairAt a).cdr cdr) {p : Printout}
    (hp : car.nodes + cdr.tailNodes ≤ p.budget) (first : Bool) :
    Prints p (s.printTail .write p first (.pair a)).1
      ((if first then [] else [' ']) ++ (car.written ++ cdr.writtenTail))
      (car.nodes + cdr.tailNodes) := by
  have hpos := car.nodes_pos
  have hbudget := p.separate_budget first
  have hitem := hcar.node (p.separate first) (by omega)
  have hspent := hitem.budget_eq
  have hrest := hcdr.tail (s.printNode .write (p.separate first) (s.pairAt a).car).1 (by omega)
  rw [printTail_pair _ _ _ _ (show p.budget ≠ 0 by omega), ← Nat.zero_add (_ + _)]
  exact (Prints.separate p first).trans (hitem.trans hrest)

theorem printsDatum_pair {a : Address} {car cdr : Datum}
    (hcar : s.PrintsDatum (s.pairAt a).car car) (hcdr : s.PrintsDatum (s.pairAt a).cdr cdr) :
    s.PrintsDatum (.pair a) (.pair car cdr) where
  node p hp := by
    rw [Datum.nodes] at hp
    have hpos : p.budget ≠ 0 := by omega
    have hopen := Prints.spend hpos "("
    have hbudget := hopen.budget_eq
    have hitems := prints_items hcar hcdr (p := p.spend.add "(") (by omega) true
    rw [printNode_pair _ _ _ hpos, Datum.written, Datum.nodes]
    simpa using hopen.enclose hitems
  tail p hp := by
    rw [Datum.tailNodes] at hp ⊢
    rw [Datum.writtenTail]
    exact prints_items hcar hcdr hp false

theorem prints_vectorItems {vs : List Value} {items : List Datum}
    (h : List.Forall₂ s.PrintsDatum vs items) {p : Printout}
    (hp : (items.map Datum.nodes).sum ≤ p.budget) (first : Bool) :
    Prints p (s.printItems .write p first vs).1
      (if first then (Datum.writtenItems items).drop 1 else Datum.writtenItems items)
      (items.map Datum.nodes).sum := by
  induction h generalizing p first with
  | nil =>
    rw [printItems, Datum.writtenItems]
    exact ⟨by simp, rfl⟩
  | @cons v d vs items hv _ ih =>
    rw [List.map_cons, List.sum_cons] at hp ⊢
    have hpos := d.nodes_pos
    have hbudget := p.separate_budget first
    have hitem := hv.node (p.separate first) (by omega)
    have hspent := hitem.budget_eq
    have hroom : (items.map Datum.nodes).sum ≤
        (s.printNode .write (p.separate first) v).1.budget := by omega
    have htext : (if first then (Datum.writtenItems (d :: items)).drop 1
        else Datum.writtenItems (d :: items)) =
        (if first then [] else [' ']) ++ (d.written ++ Datum.writtenItems items) := by
      cases first <;> simp [Datum.writtenItems]
    rw [printItems_cons _ _ _ _ (show p.budget ≠ 0 by omega), htext, ← Nat.zero_add (_ + _)]
    exact (Prints.separate p first).trans (hitem.trans (ih hroom false))

theorem printsDatum_vector {a : Address} {items : List Datum}
    (h : List.Forall₂ s.PrintsDatum (s.vectorAt a).toList items) :
    s.PrintsDatum (.vector a) (.vector items) := by
  refine printsDatum_of_node (by simp) (by simp) (by simp) (by simp) fun p hp => ?_
  rw [Datum.nodes] at hp
  have hpos : p.budget ≠ 0 := by omega
  have hopen := (Prints.spend hpos "#(").enter a
  have hbudget := hopen.budget_eq
  have hitems := prints_vectorItems h (p := (p.spend.add "#(").enter a) (by omega) true
  rw [printNode_vector _ _ _ hpos, Datum.written, Datum.nodes]
  simpa using hopen.enclose hitems

theorem Holds.printsDatum {v : Value} {d : Datum} (h : s.Holds v d) : s.PrintsDatum v d := by
  induction h with
  | null => exact printsDatum_null
  | pair _ _ _ hcar hcdr => exact printsDatum_pair hcar hcdr
  | vector _ hsize _ ih =>
    exact printsDatum_vector (List.forall₂_iff_zip.mpr ⟨hsize, fun h => ih _ _ h⟩)
  | bool b =>
    exact printsDatum_atom (by simp) (by simp) (by simp) (by simp) (by simp) (by simp)
      (by cases b <;> simp [atomText, Datum.atomText])
  | int _ | float _ | char _ | string _ | symbol _ =>
    exact printsDatum_atom (by simp) (by simp) (by simp) (by simp) (by simp) (by simp) rfl

theorem Holds.writeText {v : Value} {d : Datum} (h : s.Holds v d) (hd : d.nodes ≤ printBudget) :
    (s.writeText v).toList = d.written := by
  simpa [Store.writeText, print] using (h.printsDatum.node ⟨"", printBudget, []⟩ hd).text_eq

end Store
end HygienicScheme
