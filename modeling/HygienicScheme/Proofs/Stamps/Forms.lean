import HygienicScheme.Proofs.Discipline.Expansion
import HygienicScheme.Proofs.Store.Slots
import HygienicScheme.Proofs.Store.Spines

/-!
# Forms on their way through expansion

What is expanded is a tree, and a stamped symbol in it never has the name of a special form, since
a template brings such names in bare. Matching takes a form apart, and transcription puts parts of
it and symbols of its own together to another.

A value is clean when no stamped symbol can be reached from it through the slots of pairs and
vectors. It may be circular, so cleanness is no induction over the value: it is shown by an
invariant of the values on the way. Writing clean values into clean cells keeps everything clean
that was clean.
-/
namespace HygienicScheme

namespace Store

/-! ### Data without stamps -/

def Plain (s : Store) : Value → Prop
  | .symbol x => x.Plain
  | .pair a => a < s.pairs.size
  | .vector a => a < s.vectors.size
  | _ => True

/-- All that can be reached from the value as data is plain. -/
def Clean (s : Store) : Value → Prop := s.Throughout s.Plain

variable {s t u : Store} {v w tail : Value} {items : List Value} {a : Address}

/-- What holds of a value and passes to its slots makes the value clean, if it makes it plain. -/
theorem Clean.of_invariant {P : Value → Prop} (hplain : ∀ v, P v → s.Plain v)
    (hslot : ∀ v w, P v → s.Slot v w → P w) (h : P v) : s.Clean v :=
  (Throughout.of_invariant hslot h).mono hplain

theorem Clean.plain (h : s.Clean v) : s.Plain v := Throughout.here h

theorem Clean.slot (h : s.Clean v) (hw : s.Slot v w) : s.Clean w := Throughout.slot h hw

theorem clean_of_slots (h : s.Plain v) (hslots : ∀ w, s.Slot v w → s.Clean w) : s.Clean v :=
  throughout_of_slots h hslots

theorem clean_constant (h : v.isConstant) : s.Clean v := by
  have hplain : s.Plain v := by
    cases v with
    | symbol | pair | vector => cases h
    | _ => trivial
  refine clean_of_slots hplain fun w hw => ?_
  cases hw <;> cases h

theorem clean_symbol {x : Symbol} : s.Clean (.symbol x) ↔ x.Plain := by
  constructor
  · exact fun h => h.plain
  · intro h
    refine clean_of_slots h fun w hw => ?_
    cases hw

theorem clean_name (text : String) : s.Clean (.name text) := clean_symbol.mpr rfl

theorem clean_pair {a : Address} :
    s.Clean (.pair a) ↔ a < s.pairs.size ∧ s.Clean (s.pairAt a).car ∧ s.Clean (s.pairAt a).cdr := by
  constructor
  · exact fun h => ⟨h.plain, h.slot .car, h.slot .cdr⟩
  · rintro ⟨ha, hcar, hcdr⟩
    refine clean_of_slots ha fun w hw => ?_
    cases hw with
    | car => exact hcar
    | cdr => exact hcdr

theorem clean_vector {a : Address} :
    s.Clean (.vector a) ↔ a < s.vectors.size ∧ ∀ v ∈ (s.vectorAt a).toList, s.Clean v := by
  constructor
  · exact fun h => ⟨h.plain, fun v hv => h.slot (.item hv)⟩
  · rintro ⟨ha, hitems⟩
    refine clean_of_slots ha fun w hw => ?_
    cases hw with
    | item hv => exact hitems w hv

theorem Clean.chain (h : s.Clean v) (hchain : s.Chain v items tail) :
    (∀ w ∈ items, s.Clean w) ∧ s.Clean tail := Throughout.chain h hchain

theorem Clean.properList (h : s.Clean v) (hlist : s.properList? v = some items) :
    ∀ w ∈ items, s.Clean w := (h.chain (properList?_eq_some.mp hlist)).1

theorem Spine.clean (h : s.Spine v items tail) (hitems : ∀ w ∈ items, s.Clean w)
    (htail : s.Clean tail) : s.Clean v := by
  induction h with
  | nil => exact htail
  | cons ha _ ih =>
    obtain ⟨hcar, hmore⟩ := List.forall_mem_cons.mp hitems
    exact clean_pair.mpr ⟨ha, hcar, ih hmore htail⟩

structure Updates (s t : Store) : Prop where
  pairs_le : s.pairs.size ≤ t.pairs.size
  vectors_le : s.vectors.size ≤ t.vectors.size
  pair : ∀ {a}, a < s.pairs.size → t.pairAt a = s.pairAt a ∨
    s.Clean (.pair a) ∧ s.Clean (t.pairAt a).car ∧ s.Clean (t.pairAt a).cdr
  vector : ∀ {a}, a < s.vectors.size → t.vectorAt a = s.vectorAt a ∨
    s.Clean (.vector a) ∧ ∀ v ∈ (t.vectorAt a).toList, s.Clean v

theorem Grows.updates (h : s.Grows t) : s.Updates t where
  pairs_le := h.pairs_le
  vectors_le := h.vectors_le
  pair ha := .inl (h.pairAt_eq ha)
  vector ha := .inl (h.vectorAt_eq ha)

theorem Clean.update (h : s.Clean v) (hst : s.Updates t) : t.Clean v := by
  refine Clean.of_invariant (P := s.Clean) ?_ ?_ h
  · intro v hv
    cases v with
    | symbol x => exact hv.plain
    | pair a => exact Nat.lt_of_lt_of_le hv.plain hst.pairs_le
    | vector a => exact Nat.lt_of_lt_of_le hv.plain hst.vectors_le
    | _ => trivial
  · intro v w hv hw
    cases hw with
    | car =>
      rcases hst.pair hv.plain with heq | hnew
      · rw [heq]
        exact hv.slot .car
      · exact hnew.2.1
    | cdr =>
      rcases hst.pair hv.plain with heq | hnew
      · rw [heq]
        exact hv.slot .cdr
      · exact hnew.2.2
    | item hmem =>
      rcases hst.vector hv.plain with heq | hnew
      · rw [heq] at hmem
        exact hv.slot (.item hmem)
      · exact hnew.2 w hmem

theorem Clean.grow (h : s.Clean v) (hst : s.Grows t) : t.Clean v := h.update hst.updates

theorem clean_push_pair {car cdr : Value} (hcar : s.Clean car) (hcdr : s.Clean cdr) :
    { s with pairs := s.pairs.push ⟨car, cdr⟩ }.Clean (.pair s.pairs.size) := by
  have hg := grows_push_pair s ⟨car, cdr⟩
  rw [clean_pair, pairAt_push_size]
  exact ⟨by simp, hcar.grow hg, hcdr.grow hg⟩

theorem clean_push_vector {items : Array Value} (hitems : ∀ v ∈ items.toList, s.Clean v) :
    { s with vectors := s.vectors.push items }.Clean (.vector s.vectors.size) := by
  have hg := grows_push_vector s items
  rw [clean_vector, vectorAt_push_size]
  exact ⟨by simp, fun v hv => (hitems v hv).grow hg⟩

/-! ### Forms -/

inductive Form (s : Store) : Value → Prop
  | leaf {v : Value} (hp : ∀ a, v ≠ .pair a) (hv : ∀ a, v ≠ .vector a)
      (hx : ∀ x, v = .symbol x → x.Regular) : Form s v
  | pair {a : Address} (ha : a < s.pairs.size) (hcar : Form s (s.pairAt a).car)
      (hcdr : Form s (s.pairAt a).cdr) : Form s (.pair a)
  | vector {a : Address} (ha : a < s.vectors.size)
      (hitems : ∀ v ∈ (s.vectorAt a).toList, Form s v) : Form s (.vector a)

theorem form_symbol {x : Symbol} (h : x.Regular) : s.Form (.symbol x) := by
  refine .leaf (by simp) (by simp) fun y hy => ?_
  cases hy
  exact h

theorem form_name (text : String) : s.Form (.name text) := form_symbol (.inl rfl)

theorem form_constant (h : v.isConstant) : s.Form v := by
  refine .leaf ?_ ?_ ?_ <;> rintro _ rfl <;> cases h

namespace Form

theorem regular {x : Symbol} (h : s.Form (.symbol x)) : x.Regular := by
  cases h with
  | leaf _ _ hx => exact hx x rfl

theorem car (h : s.Form (.pair a)) : s.Form (s.pairAt a).car := by
  cases h with
  | leaf hp => exact absurd rfl (hp a)
  | pair _ hcar _ => exact hcar

theorem cdr (h : s.Form (.pair a)) : s.Form (s.pairAt a).cdr := by
  cases h with
  | leaf hp => exact absurd rfl (hp a)
  | pair _ _ hcdr => exact hcdr

theorem item (h : s.Form (.vector a)) : ∀ v ∈ (s.vectorAt a).toList, s.Form v := by
  cases h with
  | leaf _ hv => exact absurd rfl (hv a)
  | vector _ hitems => exact hitems

theorem tree (h : s.Form v) : s.Tree v := by
  induction h with
  | leaf hp hv => exact .leaf hp hv
  | pair ha _ _ hcar hcdr => exact .pair ha hcar hcdr
  | vector ha _ ih => exact .vector ha ih

theorem grow (h : s.Form v) (hg : s.Grows t) : t.Form v := by
  induction h with
  | leaf hp hv hx => exact leaf hp hv hx
  | pair ha _ _ hcar hcdr =>
    rw [← hg.pairAt_eq ha] at hcar hcdr
    exact pair (Nat.lt_of_lt_of_le ha hg.pairs_le) hcar hcdr
  | vector ha _ ih =>
    rw [← hg.vectorAt_eq ha] at ih
    exact vector (Nat.lt_of_lt_of_le ha hg.vectors_le) ih

theorem chain (h : s.Form v) (hchain : s.Chain v items tail) :
    (∀ w ∈ items, s.Form w) ∧ s.Form tail := by
  induction hchain with
  | tail => exact ⟨by simp, h⟩
  | pair _ ih =>
    obtain ⟨hmore, htail⟩ := ih h.cdr
    exact ⟨List.forall_mem_cons.mpr ⟨h.car, hmore⟩, htail⟩

end Form

theorem Tree.form (h : s.Tree v) (hv : s.Clean v) : s.Form v := by
  induction h with
  | leaf hp hvector =>
    refine .leaf hp hvector ?_
    rintro x rfl
    exact .inl (clean_symbol.mp hv)
  | pair ha _ _ hcar hcdr => exact .pair ha (hcar (hv.slot .car)) (hcdr (hv.slot .cdr))
  | vector ha _ ih => exact .vector ha fun w hw => ih w hw (hv.slot (.item hw))

theorem anyOf_eq_false {test : Value → Option Bool} :
    anyOf test items = some false ↔ ∀ v ∈ items, test v = some false := by
  induction items with
  | nil => simp [anyOf]
  | cons v more ih =>
    rw [anyOf, List.forall_mem_cons, ← ih]
    split
    · rename_i h
      simp [h]
    · rename_i h
      exact iff_of_false h fun hand => h hand.1

theorem Form.clean {n : Nat} (h : s.Form v) (hn : s.stampedWithin n v = some false) :
    s.Clean v := by
  induction n generalizing v with
  | zero => cases hn
  | succ n ih =>
    cases v with
    | symbol x =>
      have hx : x.isStamped = false := Option.some.inj hn
      rcases h.regular with hplain | hstamped
      · exact clean_symbol.mpr hplain
      · rw [hx] at hstamped
        cases hstamped.1
    | pair a =>
      obtain ⟨items, tail, hchain⟩ := h.tree.chain
      obtain ⟨hitems, htail⟩ := h.chain hchain
      have hnone : anyOf (s.stampedWithin n) (items ++ [tail]) = some false := by
        rw [stampedWithin, splitList?_eq_some.mpr hchain] at hn
        exact hn
      rw [anyOf_eq_false] at hnone
      have hclean : ∀ w ∈ items, s.Clean w := fun w hw =>
        ih (hitems w hw) (hnone w (List.mem_append_left _ hw))
      exact (h.tree.spine hchain).clean hclean (ih htail (hnone tail (by simp)))
    | vector a =>
      have hnone : ∀ w ∈ (s.vectorAt a).toList, s.stampedWithin n w = some false :=
        anyOf_eq_false.mp hn
      exact clean_vector.mpr ⟨h.tree.vector_lt, fun w hw => ih (h.item w hw) (hnone w hw)⟩
    | _ => exact clean_constant rfl

end Store

mutual

theorem Pattern.Fits.isConstant {names : String → Prop} :
    ∀ {p : Pattern}, p.Fits names → ∀ v ∈ p.constants, v.isConstant
  | .wildcard, _ | .variable _, _ | .literal _, _ => by simp [Pattern.constants]
  | .constant _, h => List.forall_mem_singleton.mpr h
  | .list _, h | .vector _, h => PatternSeq.Fits.isConstant h

theorem PatternSeq.Fits.isConstant {names : String → Prop} :
    ∀ {ps : PatternSeq}, ps.Fits names → ∀ v ∈ ps.constants, v.isConstant
  | .done, _ => by simp [PatternSeq.constants]
  | .rest _, h => Pattern.Fits.isConstant h
  | .item _ _, h | .repeated _ _, h => List.forall_mem_append.mpr
    ⟨Pattern.Fits.isConstant h.1, PatternSeq.Fits.isConstant h.2⟩

end

mutual

theorem Template.Atomic.isConstant : ∀ {t : Template}, t.Atomic → ∀ v ∈ t.constants, v.isConstant
  | .variable _, _ | .free _, _ => by simp [Template.constants]
  | .constant _, h => List.forall_mem_singleton.mpr h
  | .list _, h | .vector _, h => TemplateSeq.Atomic.isConstant h

theorem TemplateSeq.Atomic.isConstant :
    ∀ {ts : TemplateSeq}, ts.Atomic → ∀ v ∈ ts.constants, v.isConstant
  | .done, _ => by simp [TemplateSeq.constants]
  | .tail _, h => Template.Atomic.isConstant h
  | .item _ _ _, h => List.forall_mem_append.mpr
    ⟨Template.Atomic.isConstant h.1, TemplateSeq.Atomic.isConstant h.2⟩

end

theorem Transformer.Fits.isConstant {names : String → Prop} {m : Transformer} (h : m.Fits names) :
    ∀ v ∈ m.constants, v.isConstant := by
  intro v hv
  obtain ⟨r, hr, hv⟩ := List.mem_flatMap.mp hv
  rcases List.mem_append.mp hv with hv | hv
  · exact (h.patterns r hr).isConstant v hv
  · exact Template.Atomic.isConstant (h.templates r hr) v hv

namespace Store

/-- The transformers in the store were compiled with nothing but constants. -/
def Compiled (s : Store) : Prop :=
  ∀ f, ∀ m ∈ (s.frameAt f).transformers, ∀ v ∈ m.2.constants, v.isConstant

variable {s t : Store}

theorem Compiled.of_frames (h : s.Compiled) (hst : t.frames = s.frames) : t.Compiled := by
  intro f
  rw [frameAt, hst]
  exact h f

theorem Compiled.install (h : s.Compiled) (env : Environment) {m : Transformer}
    (hm : ∀ v ∈ m.constants, v.isConstant) : (s.install env m).Compiled := by
  intro f p hp
  rw [Store.install, frameAt_modifyFrame] at hp
  split at hp
  · rcases List.mem_cons.mp hp with rfl | hp
    · exact hm
    · exact h f p hp
  · exact h f p hp

theorem form_push_pair {car cdr : Value} (hcar : s.Form car) (hcdr : s.Form cdr) :
    { s with pairs := s.pairs.push ⟨car, cdr⟩ }.Form (.pair s.pairs.size) := by
  have hg := grows_push_pair s ⟨car, cdr⟩
  refine .pair (by simp) ?_ ?_ <;> rw [pairAt_push_size]
  · exact hcar.grow hg
  · exact hcdr.grow hg

theorem form_push_vector {items : Array Value} (hitems : ∀ v ∈ items.toList, s.Form v) :
    { s with vectors := s.vectors.push items }.Form (.vector s.vectors.size) := by
  have hg := grows_push_vector s items
  refine .vector (by simp) ?_
  rw [vectorAt_push_size]
  exact fun v hv => (hitems v hv).grow hg

def Form.discipline : ExpansionDiscipline where
  Holds := Compiled
  Data := Form
  Leads := Grows
  refl := .refl
  trans := .trans
  data_leads hst hv := hv.grow hst
  constant hv _ _ _ := form_constant hv
  name := form_name
  slot _ hv hw := by
    cases hw with
    | car => exact hv.car
    | cdr => exact hv.cdr
    | item hw => exact hv.item _ hw
  cons hs hcar hcdr := ⟨⟨hs, grows_push_pair _ _⟩, form_push_pair hcar hcdr⟩
  vector hs hitems := ⟨⟨hs, grows_push_vector _ _⟩, form_push_vector hitems⟩
  symbol hx _ := form_symbol hx
  use hs := ⟨⟨hs, .of_cells_eq rfl rfl⟩, trivial⟩
  phase hs := ⟨hs, .of_cells_eq rfl rfl⟩
  install env _ hs _ hm _ := ⟨hs.install env (SyntaxRules.define_ok hm.compiled).2.isConstant,
    .of_cells_eq rfl rfl⟩
  constants hs hm v hv := form_constant (hs _ _ hm v hv)

end Store

end HygienicScheme
