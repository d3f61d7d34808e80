import HygienicScheme.Proofs.Discipline.Blind
import HygienicScheme.Proofs.Discipline.Sessions
import HygienicScheme.Proofs.Store.Everywhere
import HygienicScheme.Proofs.Store.Spines

/-!
# Hidden cells

A program reaches a cell only through a value that refers to it. So it leaves cells alone to which
nothing refers but these cells themselves, such as those of a copy that is still being made. New
cells are of this kind, because all cells that are referred to are in the store.
-/
namespace HygienicScheme

structure Cells where
  pairs : Address → Prop
  vectors : Address → Prop

namespace Cells

def Has (own : Cells) : Value → Prop
  | .pair a => own.pairs a
  | .vector a => own.vectors a
  | _ => False

def none : Cells := ⟨fun _ => False, fun _ => False⟩

def union (own more : Cells) : Cells :=
  ⟨fun a => own.pairs a ∨ more.pairs a, fun a => own.vectors a ∨ more.vectors a⟩

def withPair (own : Cells) (a : Address) : Cells :=
  { own with pairs := fun b => b = a ∨ own.pairs b }

def withVector (own : Cells) (a : Address) : Cells :=
  { own with vectors := fun b => b = a ∨ own.vectors b }

structure Le (own more : Cells) : Prop where
  pairs : ∀ a, own.pairs a → more.pairs a
  vectors : ∀ a, own.vectors a → more.vectors a

variable {own more : Cells} {v : Value} {a : Address}

theorem Le.refl (own : Cells) : own.Le own := ⟨fun _ => id, fun _ => id⟩

theorem Le.trans {most : Cells} (h : own.Le more) (k : more.Le most) : own.Le most :=
  ⟨fun a ha => k.pairs a (h.pairs a ha), fun a ha => k.vectors a (h.vectors a ha)⟩

theorem le_union_left : own.Le (own.union more) := ⟨fun _ => .inl, fun _ => .inl⟩

theorem le_union_right : more.Le (own.union more) := ⟨fun _ => .inr, fun _ => .inr⟩

theorem le_withPair : own.Le (own.withPair a) := ⟨fun _ => .inr, fun _ => id⟩

theorem le_withVector : own.Le (own.withVector a) := ⟨fun _ => id, fun _ => .inr⟩

theorem has_union : (own.union more).Has v ↔ own.Has v ∨ more.Has v := by
  cases v <;> simp [Has, union]

theorem has_withPair : (own.withPair a).Has v ↔ v = .pair a ∨ own.Has v := by
  cases v <;> simp [Has, withPair]

theorem has_withVector : (own.withVector a).Has v ↔ v = .vector a ∨ own.Has v := by
  cases v <;> simp [Has, withVector]

theorem not_has_none : ¬ none.Has v := by
  cases v <;> simp [Has, none]

theorem not_has_constant (hv : v.isConstant) : ¬ own.Has v := by
  cases v <;> simp_all [Has, Value.isConstant]

end Cells

namespace Store

variable {s t : Store} {v : Value}

theorem located_constant (hv : v.isConstant) : s.Located v := by
  cases v with
  | pair | vector => cases hv
  | _ => trivial

end Store

def locating : Blind where
  Holds s := s.All s.Located
  Data := Store.Located
  Leads s t := s.pairs.size ≤ t.pairs.size ∧ s.vectors.size ≤ t.vectors.size
  refl _ := ⟨Nat.le_refl _, Nat.le_refl _⟩
  trans h k := ⟨Nat.le_trans h.1 k.1, Nat.le_trans h.2 k.2⟩
  data_leads hst hv := hv.leads hst.1 hst.2
  constant hv _ _ _ := Store.located_constant hv
  name _ := trivial
  slot hs _ hw := hs.slot hw
  cons hs hcar hcdr :=
    ⟨⟨(hs.push_pair hcar hcdr).mono fun _ hv => hv.leads (by simp) (Nat.le_refl _), by simp,
      Nat.le_refl _⟩, by simp [Store.Located]⟩
  vector hs hitems :=
    ⟨⟨(hs.push_vector hitems).mono fun _ hv => hv.leads (Nat.le_refl _) (by simp), Nat.le_refl _,
      by simp⟩, by simp [Store.Located]⟩
  bound hs _ hb := hs.binding _ _ hb
  promised a hs := hs.promise a
  promise hs hv := ⟨⟨hs.push_promise hv, Nat.le_refl _, Nat.le_refl _⟩, trivial⟩
  child _ hs _ hbindings := ⟨⟨hs.push_frame hbindings, Nat.le_refl _, Nat.le_refl _⟩, trivial⟩
  setPair hs _ hcar hcdr :=
    ⟨(hs.modify_pair hcar hcdr).mono fun _ hv => hv.leads (by simp) (Nat.le_refl _), by simp,
      Nat.le_refl _⟩
  setVector hs _ hitems :=
    ⟨(hs.modify_vector hitems).mono fun _ hv => hv.leads (Nat.le_refl _) (by simp), Nat.le_refl _,
      by simp⟩
  settle _ hs _ hv := ⟨hs.set_promise hv, Nat.le_refl _, Nat.le_refl _⟩
  bind f x _ hs hv := ⟨hs.bind f x hv, Nat.le_refl _, Nat.le_refl _⟩
  string _ hs := ⟨{ hs with }, Nat.le_refl _, Nat.le_refl _⟩
  emit _ hs := ⟨{ hs with }, Nat.le_refl _, Nat.le_refl _⟩
  exit hs := ⟨⟨{ hs with }, Nat.le_refl _, Nat.le_refl _⟩, trivial⟩
  symbol _ _ := trivial
  use hs := ⟨⟨{ hs with }, Nat.le_refl _, Nat.le_refl _⟩, trivial⟩
  phase hs := ⟨{ hs with }, Nat.le_refl _, Nat.le_refl _⟩
  install env _ hs _ _ hm := ⟨hs.install env hm, Nat.le_refl _, Nat.le_refl _⟩
  constants hs hm v hv := hs.constant _ _ hm v hv
  body a hs _ := hs.body a
  closure hs _ _ hbody := ⟨⟨hs.push_closure hbody, Nat.le_refl _, Nat.le_refl _⟩, trivial⟩

def locatedTerms : Terms where
  datum _ := True
  value s v := s.Located v
  step _ := True

theorem locating_admits : locating.regimen.Admits locatedTerms where
  datum _ hs := EvaluationDiscipline.holds_place (fun _ _ _ => trivial) hs
  value hv := ⟨hv, trivial⟩
  step _ := locating.allows _

/-- In all states that such sessions come to, all cells that are referred to are in the store. -/
theorem located_of_reached {config : Config} {outputName : String} {m : Machine}
    (h : Machine.Reached config outputName locatedTerms m) : m.store.All m.store.Located :=
  (Regimen.kept_of_reached locating_admits (.empty trivial) trivial h).store

namespace Store

variable {s t u : Store} {own more : Cells} {v w tail : Value} {items : List Value} {a : Address}

structure Hides (s : Store) (own : Cells) : Prop
    extends s.Roots (fun v => ¬ own.Has v) (fun v => ¬ own.Has v) (fun v => ¬ own.Has v) where
  pair_lt : ∀ a, own.pairs a → a < s.pairs.size
  vector_lt : ∀ a, own.vectors a → a < s.vectors.size
  car : ∀ a, ¬ own.pairs a → ¬ own.Has (s.pairAt a).car
  cdr : ∀ a, ¬ own.pairs a → ¬ own.Has (s.pairAt a).cdr
  item : ∀ a, ¬ own.vectors a → ∀ v ∈ (s.vectorAt a).toList, ¬ own.Has v

structure SameIn (own : Cells) (s t : Store) : Prop where
  pairs_le : s.pairs.size ≤ t.pairs.size
  vectors_le : s.vectors.size ≤ t.vectors.size
  pairAt_eq : ∀ a, own.pairs a → t.pairAt a = s.pairAt a
  vectorAt_eq : ∀ a, own.vectors a → t.vectorAt a = s.vectorAt a

theorem SameIn.refl (s : Store) : SameIn own s s :=
  ⟨Nat.le_refl _, Nat.le_refl _, fun _ _ => rfl, fun _ _ => rfl⟩

theorem SameIn.trans (h : SameIn own s t) (k : SameIn own t u) : SameIn own s u where
  pairs_le := Nat.le_trans h.pairs_le k.pairs_le
  vectors_le := Nat.le_trans h.vectors_le k.vectors_le
  pairAt_eq a ha := (k.pairAt_eq a ha).trans (h.pairAt_eq a ha)
  vectorAt_eq a ha := (k.vectorAt_eq a ha).trans (h.vectorAt_eq a ha)

theorem SameIn.le (h : SameIn more s t) (hle : own.Le more) : SameIn own s t where
  pairs_le := h.pairs_le
  vectors_le := h.vectors_le
  pairAt_eq a ha := h.pairAt_eq a (hle.pairs a ha)
  vectorAt_eq a ha := h.vectorAt_eq a (hle.vectors a ha)

theorem SameIn.of_cells_eq (hp : t.pairs = s.pairs) (hv : t.vectors = s.vectors) :
    SameIn own s t where
  pairs_le := Nat.le_of_eq (by rw [hp])
  vectors_le := Nat.le_of_eq (by rw [hv])
  pairAt_eq _ _ := by rw [pairAt, pairAt, hp]
  vectorAt_eq _ _ := by rw [vectorAt, vectorAt, hv]

theorem Grows.sameIn (hg : s.Grows t) (hs : s.Hides own) : SameIn own s t where
  pairs_le := hg.pairs_le
  vectors_le := hg.vectors_le
  pairAt_eq a ha := hg.pairAt_eq (hs.pair_lt a ha)
  vectorAt_eq a ha := hg.vectorAt_eq (hs.vector_lt a ha)

theorem pairAt_push {p : Pair} : ({ s with pairs := s.pairs.push p } : Store).pairAt a =
    if a = s.pairs.size then p else s.pairAt a := by
  simp only [pairAt, Array.getD_eq_getD_getElem?, Array.getElem?_push]
  split <;> rfl

theorem vectorAt_push {items : Array Value} :
    ({ s with vectors := s.vectors.push items } : Store).vectorAt a =
      if a = s.vectors.size then items else s.vectorAt a := by
  simp only [vectorAt, Array.getD_eq_getD_getElem?, Array.getElem?_push]
  split <;> rfl

theorem Located.ne_pair (h : s.Located v) : v ≠ .pair s.pairs.size := by
  rintro rfl
  exact Nat.lt_irrefl _ h

theorem Located.ne_vector (h : s.Located v) : v ≠ .vector s.vectors.size := by
  rintro rfl
  exact Nat.lt_irrefl _ h

theorem Roots.and {code data constant code' data' constant' : Value → Prop}
    (h : s.Roots code data constant) (k : s.Roots code' data' constant') :
    s.Roots (fun v => code v ∧ code' v) (fun v => data v ∧ data' v)
      (fun v => constant v ∧ constant' v) where
  body a v hv := ⟨h.body a v hv, k.body a v hv⟩
  promise a := ⟨h.promise a, k.promise a⟩
  binding f b hb := ⟨h.binding f b hb, k.binding f b hb⟩
  constant f m hm v hv := ⟨h.constant f m hm v hv, k.constant f m hm v hv⟩

namespace Hides

theorem none (s : Store) : s.Hides .none where
  body _ _ _ := Cells.not_has_none
  promise _ := Cells.not_has_none
  binding _ _ _ := Cells.not_has_none
  constant _ _ _ _ _ := Cells.not_has_none
  pair_lt _ ha := ha.elim
  vector_lt _ ha := ha.elim
  car _ _ := Cells.not_has_none
  cdr _ _ := Cells.not_has_none
  item _ _ _ _ := Cells.not_has_none

theorem union (h : s.Hides own) (k : s.Hides more) : s.Hides (own.union more) where
  toRoots := (h.toRoots.and k.toRoots).mono (fun _ hv => mt Cells.has_union.mp (not_or.mpr hv))
    (fun _ hv => mt Cells.has_union.mp (not_or.mpr hv))
    (fun _ hv => mt Cells.has_union.mp (not_or.mpr hv))
  pair_lt a ha := ha.elim (h.pair_lt a) (k.pair_lt a)
  vector_lt a ha := ha.elim (h.vector_lt a) (k.vector_lt a)
  car a ha := mt Cells.has_union.mp (not_or.mpr (by
    obtain ⟨hown, hmore⟩ := not_or.mp ha
    exact ⟨h.car a hown, k.car a hmore⟩))
  cdr a ha := mt Cells.has_union.mp (not_or.mpr (by
    obtain ⟨hown, hmore⟩ := not_or.mp ha
    exact ⟨h.cdr a hown, k.cdr a hmore⟩))
  item a ha v hv := mt Cells.has_union.mp (not_or.mpr (by
    obtain ⟨hown, hmore⟩ := not_or.mp ha
    exact ⟨h.item a hown v hv, k.item a hmore v hv⟩))

theorem slot (h : s.Hides own) (hv : ¬ own.Has v) (hw : s.Slot v w) : ¬ own.Has w := by
  cases hw with
  | car => exact h.car _ hv
  | cdr => exact h.cdr _ hv
  | item hitem => exact h.item _ hv _ hitem

theorem push_pair {p : Pair} (h : s.Hides own) (hcar : ¬ own.Has p.car) (hcdr : ¬ own.Has p.cdr) :
    { s with pairs := s.pairs.push p }.Hides own where
  toRoots := { h.toRoots with }
  pair_lt a ha := Nat.lt_of_lt_of_le (h.pair_lt a ha) (by simp)
  vector_lt := h.vector_lt
  car a ha := by
    rw [pairAt_push]
    split
    · exact hcar
    · exact h.car a ha
  cdr a ha := by
    rw [pairAt_push]
    split
    · exact hcdr
    · exact h.cdr a ha
  item := h.item

theorem push_vector {items : Array Value} (h : s.Hides own)
    (hitems : ∀ v ∈ items.toList, ¬ own.Has v) :
    { s with vectors := s.vectors.push items }.Hides own where
  toRoots := { h.toRoots with }
  pair_lt := h.pair_lt
  vector_lt a ha := Nat.lt_of_lt_of_le (h.vector_lt a ha) (by simp)
  car := h.car
  cdr := h.cdr
  item a ha := by
    rw [vectorAt_push]
    split
    · exact hitems
    · exact h.item a ha

theorem modify_pair {change : Pair → Pair} (h : s.Hides own)
    (hcar : ¬ own.Has (change (s.pairAt a)).car) (hcdr : ¬ own.Has (change (s.pairAt a)).cdr) :
    { s with pairs := s.pairs.modify a change }.Hides own where
  toRoots := { h.toRoots with }
  pair_lt b hb := by simpa using h.pair_lt b hb
  vector_lt := h.vector_lt
  car b hb := by
    rw [pairAt_modify]
    split
    · rename_i hab
      obtain ⟨rfl, -⟩ := hab
      exact hcar
    · exact h.car b hb
  cdr b hb := by
    rw [pairAt_modify]
    split
    · rename_i hab
      obtain ⟨rfl, -⟩ := hab
      exact hcdr
    · exact h.cdr b hb
  item := h.item

theorem modify_vector {change : Array Value → Array Value} (h : s.Hides own)
    (hitems : ∀ v ∈ (change (s.vectorAt a)).toList, ¬ own.Has v) :
    { s with vectors := s.vectors.modify a change }.Hides own where
  toRoots := { h.toRoots with }
  pair_lt := h.pair_lt
  vector_lt b hb := by simpa using h.vector_lt b hb
  car := h.car
  cdr := h.cdr
  item b hb := by
    rw [vectorAt_modify]
    split
    · rename_i hab
      obtain ⟨rfl, -⟩ := hab
      exact hitems
    · exact h.item b hb

theorem withPair (h : s.Hides own) (hs : s.All s.Located) (p : Pair) :
    { s with pairs := s.pairs.push p }.Hides (own.withPair s.pairs.size) := by
  have hnew : ∀ v, ¬ own.Has v ∧ s.Located v → ¬ (own.withPair s.pairs.size).Has v :=
    fun v hv => mt Cells.has_withPair.mp (not_or.mpr ⟨hv.2.ne_pair, hv.1⟩)
  have hroots := (h.toRoots.and hs.toRoots).mono hnew hnew hnew
  refine { hroots with pair_lt := ?_, vector_lt := h.vector_lt, car := ?_, cdr := ?_, item := ?_ }
  · rintro a (rfl | ha)
    · simp
    · exact Nat.lt_of_lt_of_le (h.pair_lt a ha) (by simp)
  · intro a ha
    obtain ⟨hne, hown⟩ := not_or.mp ha
    rw [pairAt_push, if_neg hne]
    exact hnew _ ⟨h.car a hown, hs.car a⟩
  · intro a ha
    obtain ⟨hne, hown⟩ := not_or.mp ha
    rw [pairAt_push, if_neg hne]
    exact hnew _ ⟨h.cdr a hown, hs.cdr a⟩
  · exact fun a ha v hv => hnew v ⟨h.item a ha v hv, hs.item a v hv⟩

theorem withVector (h : s.Hides own) (hs : s.All s.Located) (items : Array Value) :
    { s with vectors := s.vectors.push items }.Hides (own.withVector s.vectors.size) := by
  have hnew : ∀ v, ¬ own.Has v ∧ s.Located v → ¬ (own.withVector s.vectors.size).Has v :=
    fun v hv => mt Cells.has_withVector.mp (not_or.mpr ⟨hv.2.ne_vector, hv.1⟩)
  have hroots := (h.toRoots.and hs.toRoots).mono hnew hnew hnew
  refine { hroots with pair_lt := h.pair_lt, vector_lt := ?_, car := ?_, cdr := ?_, item := ?_ }
  · rintro a (rfl | ha)
    · simp
    · exact Nat.lt_of_lt_of_le (h.vector_lt a ha) (by simp)
  · exact fun a ha => hnew _ ⟨h.car a ha, hs.car a⟩
  · exact fun a ha => hnew _ ⟨h.cdr a ha, hs.cdr a⟩
  · intro a ha
    obtain ⟨hne, hown⟩ := not_or.mp ha
    rw [vectorAt_push, if_neg hne]
    exact fun v hv => hnew v ⟨h.item a hown v hv, hs.item a v hv⟩

end Hides

end Store

def sparing (own : Cells) : Blind where
  Holds s := s.Hides own
  Data _ v := ¬ own.Has v
  Leads := Store.SameIn own
  refl := .refl
  trans := .trans
  data_leads _ hv := hv
  constant hv _ _ _ := Cells.not_has_constant hv
  name _ := id
  slot hs hv hw := hs.slot hv hw
  cons hs hcar hcdr :=
    ⟨⟨hs.push_pair hcar hcdr, (Store.grows_push_pair _ _).sameIn hs⟩,
      fun hpair => Nat.lt_irrefl _ (hs.pair_lt _ hpair)⟩
  vector hs hitems :=
    ⟨⟨hs.push_vector hitems, (Store.grows_push_vector _ _).sameIn hs⟩,
      fun hvector => Nat.lt_irrefl _ (hs.vector_lt _ hvector)⟩
  bound hs _ hb := hs.binding _ _ hb
  promised a hs := hs.promise a
  promise hs hv := ⟨⟨{ hs with toRoots := hs.push_promise hv }, .of_cells_eq rfl rfl⟩, id⟩
  child _ hs _ hbindings :=
    ⟨⟨{ hs with toRoots := hs.push_frame hbindings }, .of_cells_eq rfl rfl⟩, trivial⟩
  setPair {s a change} hs ha hcar hcdr := by
    refine ⟨hs.modify_pair hcar hcdr, by simp, Nat.le_refl _, fun b hb => ?_, fun _ _ => rfl⟩
    rw [Store.pairAt_modify, if_neg]
    rintro ⟨rfl, -⟩
    exact ha hb
  setVector {s a change} hs ha hitems := by
    refine ⟨hs.modify_vector hitems, Nat.le_refl _, by simp, fun _ _ => rfl, fun b hb => ?_⟩
    rw [Store.vectorAt_modify, if_neg]
    rintro ⟨rfl, -⟩
    exact ha hb
  settle _ hs _ hv := ⟨{ hs with toRoots := hs.set_promise hv }, .of_cells_eq rfl rfl⟩
  bind f x _ hs hv := ⟨{ hs with toRoots := hs.toRoots.bind f x hv }, .of_cells_eq rfl rfl⟩
  string _ hs := ⟨{ hs with }, .of_cells_eq rfl rfl⟩
  emit _ hs := ⟨{ hs with }, .of_cells_eq rfl rfl⟩
  exit hs := ⟨⟨{ hs with }, .of_cells_eq rfl rfl⟩, id⟩
  symbol _ _ := id
  use hs := ⟨⟨{ hs with }, .of_cells_eq rfl rfl⟩, trivial⟩
  phase hs := ⟨{ hs with }, .of_cells_eq rfl rfl⟩
  install env _ hs _ _ hm :=
    ⟨{ hs with toRoots := hs.toRoots.install env hm }, .of_cells_eq rfl rfl⟩
  constants hs hm v hv := hs.constant _ _ hm v hv
  body a hs _ := hs.body a
  closure hs _ _ hbody := ⟨⟨{ hs with toRoots := hs.push_closure hbody }, .of_cells_eq rfl rfl⟩, id⟩

namespace Store

variable {s t u : Store} {own more : Cells} {v tail : Value} {items : List Value}

inductive Consed (s : Store) (own : Cells) : Value → List Value → Value → Prop
  | nil {v : Value} : Consed s own v [] v
  | cons {a : Address} {items : List Value} {tail : Value} (ha : own.pairs a)
      (h : Consed s own (s.pairAt a).cdr items tail) :
      Consed s own (.pair a) ((s.pairAt a).car :: items) tail

namespace Consed

theorem of_pairAt {a : Address} {car cdr : Value} (ha : own.pairs a)
    (hp : s.pairAt a = ⟨car, cdr⟩) (h : s.Consed own cdr items tail) :
    s.Consed own (.pair a) (car :: items) tail := by
  have hcons : s.Consed own (.pair a) ((s.pairAt a).car :: items) tail := .cons ha (by rwa [hp])
  rwa [hp] at hcons

theorem sameIn (h : s.Consed own v items tail) (hst : SameIn own s t) :
    t.Consed own v items tail := by
  induction h with
  | nil => exact .nil
  | cons ha _ ih => exact .of_pairAt ha (hst.pairAt_eq _ ha) ih

theorem mono (h : s.Consed own v items tail) (hle : own.Le more) : s.Consed more v items tail := by
  induction h with
  | nil => exact .nil
  | cons ha _ ih => exact .cons (hle.pairs _ ha) ih

theorem append {others : List Value} {last : Value} (h : s.Consed own v items tail)
    (k : s.Consed own tail others last) : s.Consed own v (items ++ others) last := by
  induction h with
  | nil => exact k
  | cons ha _ ih => exact .cons ha (ih k)

theorem eq_of_nil (h : s.Consed own v [] tail) : tail = v := by
  cases h
  rfl

theorem singleton {w : Value} (h : s.Consed own v [w] tail) :
    ∃ a, v = .pair a ∧ s.pairAt a = ⟨w, tail⟩ := by
  cases h with
  | @cons a _ _ _ h =>
    obtain rfl := h.eq_of_nil
    exact ⟨a, rfl, rfl⟩

theorem chain (h : s.Consed own v items tail) (htail : ∀ a, tail ≠ .pair a) :
    s.Chain v items tail := by
  induction h with
  | nil => exact .tail htail
  | cons _ _ ih => exact .pair (ih htail)

end Consed

structure Makes (s : Store) (own : Cells) (t : Store) (more : Cells) : Prop where
  le : own.Le more
  fresh : ∀ v, more.Has v → own.Has v ∨ ¬ s.Located v
  hides : t.Hides more
  located : t.All t.Located
  grows : s.Grows t

theorem Hides.vector (h : s.Hides own) (hs : s.All s.Located) (items : Array Value)
    (hitems : ∀ v ∈ items.toList, s.Located v) :
    s.Makes own { s with vectors := s.vectors.push items } (own.withVector s.vectors.size) where
  le := Cells.le_withVector
  fresh v hv := by
    rcases Cells.has_withVector.mp hv with rfl | hv
    · exact .inr (Nat.lt_irrefl _)
    · exact .inl hv
  hides := h.withVector hs items
  located := (locating.vector hs hitems).1.1
  grows := s.grows_push_vector items

structure Fresh (s : Store) (own : Cells) (t : Store) : Prop where
  fresh : ∀ v, own.Has v → ¬ s.Located v
  hides : t.Hides own

namespace Fresh

theorem none (s t : Store) : s.Fresh .none t where
  fresh _ hv := absurd hv Cells.not_has_none
  hides := .none t

theorem union (h : s.Fresh own t) (k : s.Fresh more t) : s.Fresh (own.union more) t where
  fresh v hv := (Cells.has_union.mp hv).elim (h.fresh v) (k.fresh v)
  hides := h.hides.union k.hides

theorem earlier (h : t.Fresh own u) (hst : locating.Leads s t) : s.Fresh own u where
  fresh v hv hlocated := h.fresh v hv (hlocated.leads hst.1 hst.2)
  hides := h.hides

theorem make (h : s.Fresh own t) (hst : locating.Leads s t) (hmakes : t.Makes own u more) :
    s.Fresh more u where
  fresh v hv hlocated :=
    (hmakes.fresh v hv).elim (h.fresh v · hlocated) fun hv => hv (hlocated.leads hst.1 hst.2)
  hides := hmakes.hides

end Fresh

theorem Makes.sameIn (h : s.Makes own t more) (hs : s.Hides own) (htu : SameIn more t u) :
    SameIn own s u := (h.grows.sameIn hs).trans (htu.le h.le)

theorem Hides.listWithTail (h : s.Hides own) (hs : s.All s.Located) (items : List Value)
    (tail : Value) (hitems : ∀ v ∈ items, s.Located v) (htail : s.Located tail) :
    ∃ more, s.Makes own (Build.listWithTail items tail s).2 more ∧
      (Build.listWithTail items tail s).2.Consed more (Build.listWithTail items tail s).1 items
        tail := by
  suffices hreversed : ∀ (reversed done : List Value) (v : Value) (s : Store) (own : Cells),
      s.Hides own → s.All s.Located → (∀ v ∈ reversed, s.Located v) → s.Located v →
      s.Consed own v done tail → ∃ more, s.Makes own (Build.consReversed reversed v s).2 more ∧
        (Build.consReversed reversed v s).2.Consed more (Build.consReversed reversed v s).1
          (reversed.reverse ++ done) tail by
    have hbuilt := hreversed items.reverse [] tail s own h hs (by simpa using hitems) htail .nil
    rwa [List.reverse_reverse, List.append_nil] at hbuilt
  intro reversed
  induction reversed with
  | nil =>
    exact fun done v s own h hs _ _ hrow =>
      ⟨own, ⟨.refl own, fun _ => .inl, h, hs, .refl s⟩, hrow⟩
  | cons item rest ih =>
    intro done v s own h hs hreversed hv hrow
    obtain ⟨hitem, hrest⟩ := List.forall_mem_cons.mp hreversed
    obtain ⟨⟨hlocated, hleads⟩, hpair⟩ := locating.cons hs hitem hv
    have hg := s.grows_push_pair ⟨item, v⟩
    have hhides := h.withPair hs ⟨item, v⟩
    have hrow' : ({ s with pairs := s.pairs.push ⟨item, v⟩ } : Store).Consed
        (own.withPair s.pairs.size) (.pair s.pairs.size) (item :: done) tail :=
      .of_pairAt (.inl rfl) (s.pairAt_push_size ⟨item, v⟩)
        ((hrow.sameIn (hg.sameIn h)).mono Cells.le_withPair)
    obtain ⟨more, hmakes, hmore⟩ := ih (item :: done) (.pair s.pairs.size) _ _ hhides hlocated
      (fun w hw => (hrest w hw).leads hleads.1 hleads.2) hpair hrow'
    refine ⟨more, ⟨Cells.le_withPair.trans hmakes.le, fun w hw => ?_, hmakes.hides, hmakes.located,
      hg.trans hmakes.grows⟩, ?_⟩
    · rcases hmakes.fresh w hw with hw | hw
      · rcases Cells.has_withPair.mp hw with rfl | hw
        · exact .inr (Nat.lt_irrefl _)
        · exact .inl hw
      · exact .inr fun hlocated => hw (hlocated.leads hleads.1 hleads.2)
    · rw [List.reverse_cons, List.append_assoc, List.singleton_append]
      exact hmore

end Store

end HygienicScheme
