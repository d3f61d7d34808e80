import HygienicScheme.Proofs.Store.Bindings
import HygienicScheme.Proofs.Store.Hidden

/-!
# What an expansion keeps to itself

The code that a derived form expands to has pairs of its own; when it is evaluated it makes closures
of its own, and the identifiers it introduces have a stamp of their own. A program that has hold of
none of these cannot get hold of one, and cannot do anything to them: the pairs and closures stay as
they are, and so do the bindings of the identifiers.
-/
namespace HygienicScheme

open Expansion (maxUses)

/-- Pairs, closures, and stamps of identifiers. -/
structure Reserve where
  pairs : Address → Prop
  closures : Address → Prop
  stamps : Int → Nat → Prop

namespace Reserve

def Has (own : Reserve) : Value → Prop
  | .pair a => own.pairs a
  | .closure a => own.closures a
  | .symbol x => x.isStamped ∧ own.stamps x.phase x.useIndex
  | _ => False

def none : Reserve := ⟨fun _ => False, fun _ => False, fun _ _ => False⟩

def withPair (own : Reserve) (a : Address) : Reserve :=
  { own with pairs := fun b => b = a ∨ own.pairs b }

def withClosure (own : Reserve) (a : Address) : Reserve :=
  { own with closures := fun b => b = a ∨ own.closures b }

def withStamp (own : Reserve) (phase : Int) (index : Nat) : Reserve :=
  { own with stamps := fun p i => (p = phase ∧ i = index) ∨ own.stamps p i }

structure Le (own more : Reserve) : Prop where
  pairs : ∀ a, own.pairs a → more.pairs a
  closures : ∀ a, own.closures a → more.closures a
  stamps : ∀ p i, own.stamps p i → more.stamps p i

def Marks (own : Reserve) (v : Value) : Prop :=
  ∀ x, v = .symbol x → x.isStamped → own.stamps x.phase x.useIndex

variable {own more : Reserve} {v : Value} {a : Address} {x : Symbol}

theorem Le.marks (h : own.Le more) (hv : own.Marks v) : more.Marks v :=
  fun x hx hstamped => h.stamps _ _ (hv x hx hstamped)

theorem marks_unstamped (h : x.isStamped = false) : own.Marks (.symbol x) := by
  rintro _ ⟨⟩ hstamped
  exact Bool.noConfusion (h.symm.trans hstamped)

theorem Le.refl (own : Reserve) : own.Le own := ⟨fun _ => id, fun _ => id, fun _ _ => id⟩

theorem Le.trans {most : Reserve} (h : own.Le more) (k : more.Le most) : own.Le most :=
  ⟨fun a ha => k.pairs a (h.pairs a ha), fun a ha => k.closures a (h.closures a ha),
    fun p i hp => k.stamps p i (h.stamps p i hp)⟩

theorem Le.has (h : own.Le more) (hv : own.Has v) : more.Has v := by
  cases v with
  | pair a => exact h.pairs a hv
  | closure a => exact h.closures a hv
  | symbol x => exact ⟨hv.1, h.stamps _ _ hv.2⟩
  | _ => exact hv

theorem le_withPair : own.Le (own.withPair a) := ⟨fun _ => .inr, fun _ => id, fun _ _ => id⟩

theorem le_withClosure : own.Le (own.withClosure a) := ⟨fun _ => id, fun _ => .inr, fun _ _ => id⟩

theorem le_withStamp {phase : Int} {index : Nat} : own.Le (own.withStamp phase index) :=
  ⟨fun _ => id, fun _ => id, fun _ _ => .inr⟩

theorem has_withPair : (own.withPair a).Has v ↔ v = .pair a ∨ own.Has v := by
  cases v <;> simp [Has, withPair]

theorem has_withClosure : (own.withClosure a).Has v ↔ v = .closure a ∨ own.Has v := by
  cases v <;> simp [Has, withClosure]

theorem has_withStamp {phase : Int} {index : Nat} : (own.withStamp phase index).Has v ↔
    (∃ x : Symbol, v = .symbol x ∧ x.isStamped ∧ x.phase = phase ∧ x.useIndex = index) ∨
      own.Has v := by
  cases v <;> simp [Has, withStamp]
  grind

theorem not_has_none : ¬ none.Has v := by
  cases v <;> simp [Has, none]

theorem not_has_constant (hv : v.isConstant) (hclosure : ∀ a, v ≠ .closure a) : ¬ own.Has v := by
  cases v with
  | closure a => exact absurd rfl (hclosure a)
  | pair | symbol => cases hv
  | _ => exact id

theorem not_has_unstamped (h : x.isStamped = false) : ¬ own.Has (.symbol x) := by
  simp [Has, h]

end Reserve

namespace Store

def Before (s : Store) (phase : Int) (index : Nat) : Prop :=
  phase < s.phase ∨ phase = s.phase ∧ min (index + 1) maxUses ≤ s.uses

/-- What the value refers to is in the store, or was handed out in it. -/
def Known (s : Store) : Value → Prop
  | .pair a => a < s.pairs.size
  | .closure a => a < s.closures.size
  | .symbol x => x.isStamped → s.Before x.phase x.useIndex
  | _ => True

structure Outgrows (s t : Store) : Prop where
  pairs_le : s.pairs.size ≤ t.pairs.size
  closures_le : s.closures.size ≤ t.closures.size
  counters : s.phase < t.phase ∨ s.phase = t.phase ∧ min s.uses maxUses ≤ t.uses

variable {s t u : Store} {v w : Value} {own more : Reserve} {a : Address} {x : Symbol}

theorem Outgrows.refl (s : Store) : s.Outgrows s :=
  ⟨Nat.le_refl _, Nat.le_refl _, .inr ⟨rfl, Nat.min_le_left _ _⟩⟩

theorem Outgrows.trans (h : s.Outgrows t) (k : t.Outgrows u) : s.Outgrows u where
  pairs_le := Nat.le_trans h.pairs_le k.pairs_le
  closures_le := Nat.le_trans h.closures_le k.closures_le
  counters := by
    have hst := h.counters
    have htu := k.counters
    omega

theorem Before.outgrows {p : Int} {i : Nat} (h : s.Before p i) (hst : s.Outgrows t) :
    t.Before p i := by
  have hcounters := hst.counters
  unfold Before at h ⊢
  omega

theorem Known.outgrows (h : s.Known v) (hst : s.Outgrows t) : t.Known v := by
  cases v with
  | pair a => exact Nat.lt_of_lt_of_le h hst.pairs_le
  | closure a => exact Nat.lt_of_lt_of_le h hst.closures_le
  | symbol x => exact fun hx => (h hx).outgrows hst
  | _ => trivial

theorem known_constant (hv : v.isConstant) (hclosure : ∀ a, v ≠ .closure a) : s.Known v := by
  cases v with
  | closure a => exact absurd rfl (hclosure a)
  | pair | symbol => cases hv
  | _ => trivial

theorem known_unstamped (h : x.isStamped = false) : s.Known (.symbol x) := by
  simp [Known, h]

theorem Known.ne_pair (h : s.Known v) : v ≠ .pair s.pairs.size := by
  rintro rfl
  exact Nat.lt_irrefl _ h

theorem Known.ne_closure (h : s.Known v) : v ≠ .closure s.closures.size := by
  rintro rfl
  exact Nat.lt_irrefl _ h

/-- No identifier has the stamp of the next use, if there is still one to be had. -/
theorem Known.ne_next (h : s.Known (.symbol x)) (hx : x.isStamped) (huses : s.uses < maxUses) :
    ¬(x.phase = s.phase ∧ x.useIndex = s.uses) := by
  rintro ⟨hphase, hindex⟩
  rcases h hx with hbefore | ⟨-, hbefore⟩
  · omega
  · rw [hindex] at hbefore
    omega

theorem outgrows_of_eq (hp : s.pairs.size ≤ t.pairs.size) (hc : t.closures = s.closures)
    (hphase : t.phase = s.phase) (huses : t.uses = s.uses) : s.Outgrows t :=
  ⟨hp, Nat.le_of_eq (by rw [hc]), .inr ⟨hphase.symm, by rw [huses]; exact Nat.min_le_left _ _⟩⟩

theorem outgrows_use : s.Outgrows { s with uses := min (s.uses + 1) maxUses } :=
  ⟨Nat.le_refl _, Nat.le_refl _, .inr ⟨rfl, by dsimp only; omega⟩⟩

theorem outgrows_phase : s.Outgrows { s with phase := s.phase + 1, uses := 0 } :=
  ⟨Nat.le_refl _, Nat.le_refl _, .inl (Nat.lt_succ_self _)⟩

theorem outgrows_closure (c : Closure) :
    s.Outgrows { s with closures := s.closures.push c } :=
  ⟨Nat.le_refl _, by simp, .inr ⟨rfl, Nat.min_le_left _ _⟩⟩

theorem known_closure {c : Closure} (hs : s.All s.Known) (hbody : ∀ v ∈ c.body, s.Known v) :
    let t := { s with closures := s.closures.push c }
    t.All t.Known :=
  (hs.push_closure hbody).mono fun _ hv => hv.outgrows (outgrows_closure c)

theorem before_use : ({ s with uses := min (s.uses + 1) maxUses } : Store).Before s.phase s.uses :=
  .inr ⟨rfl, Nat.le_refl _⟩

end Store

open Store in
def knowing : Blind where
  Holds s := s.All s.Known
  Data := Store.Known
  Leads := Store.Outgrows
  refl := .refl
  trans := .trans
  data_leads hst hv := hv.outgrows hst
  constant hv _ _ hclosure := known_constant hv hclosure
  name _ := known_unstamped rfl
  slot hs _ hw := hs.slot hw
  cons {s car cdr} hs hcar hcdr := by
    have hst : s.Outgrows { s with pairs := s.pairs.push ⟨car, cdr⟩ } :=
      outgrows_of_eq (by simp) rfl rfl rfl
    exact ⟨⟨(hs.push_pair hcar hcdr).mono fun _ hv => hv.outgrows hst, hst⟩, by simp [Known]⟩
  vector hs hitems :=
    ⟨⟨hs.push_vector hitems, outgrows_of_eq (Nat.le_refl _) rfl rfl rfl⟩, trivial⟩
  bound hs _ hb := hs.binding _ _ hb
  promised a hs := hs.promise a
  promise hs hv := ⟨⟨hs.push_promise hv, outgrows_of_eq (Nat.le_refl _) rfl rfl rfl⟩, trivial⟩
  child _ hs _ hbindings :=
    ⟨⟨hs.push_frame hbindings, outgrows_of_eq (Nat.le_refl _) rfl rfl rfl⟩, trivial⟩
  setPair {s a change} hs _ hcar hcdr := by
    have hst : s.Outgrows { s with pairs := s.pairs.modify a change } :=
      outgrows_of_eq (by simp) rfl rfl rfl
    exact ⟨(hs.modify_pair hcar hcdr).mono fun _ hv => hv.outgrows hst, hst⟩
  setVector hs _ hitems :=
    ⟨hs.modify_vector hitems, outgrows_of_eq (Nat.le_refl _) rfl rfl rfl⟩
  settle _ hs _ hv := ⟨hs.set_promise hv, outgrows_of_eq (Nat.le_refl _) rfl rfl rfl⟩
  bind f x _ hs hv := ⟨hs.bind f x hv, outgrows_of_eq (Nat.le_refl _) rfl rfl rfl⟩
  string _ hs := ⟨{ hs with }, outgrows_of_eq (Nat.le_refl _) rfl rfl rfl⟩
  emit _ hs := ⟨{ hs with }, outgrows_of_eq (Nat.le_refl _) rfl rfl rfl⟩
  exit hs := ⟨⟨{ hs with }, outgrows_of_eq (Nat.le_refl _) rfl rfl rfl⟩, trivial⟩
  Stamp := Store.Before
  stamp_leads hst hbefore := hbefore.outgrows hst
  symbol _ hstamp := hstamp
  use hs := ⟨⟨{ hs.mono fun _ hv => hv.outgrows outgrows_use with }, outgrows_use⟩, before_use⟩
  phase hs := ⟨{ hs.mono fun _ hv => hv.outgrows outgrows_phase with }, outgrows_phase⟩
  install env _ hs _ _ hm :=
    ⟨hs.install env hm, outgrows_of_eq (Nat.le_refl _) rfl rfl rfl⟩
  constants hs hm v hv := hs.constant _ _ hm v hv
  body a hs _ := hs.body a
  closure hs _ _ hbody := ⟨⟨known_closure hs hbody, outgrows_closure _⟩, by simp [Known]⟩

def knownTerms : Terms where
  datum d := ∀ x ∈ d.symbols, x.isStamped = false
  value s v := s.Known v
  step _ := True

theorem knowing_admits : knowing.regimen.Admits knownTerms where
  datum hd hs := EvaluationDiscipline.holds_place (fun x hx _ => Store.known_unstamped (hd x hx)) hs
  value hv := ⟨hv, trivial⟩
  step _ := knowing.allows _

/-- In all states that such sessions come to, all that is referred to is in the store. -/
theorem known_of_reached {config : Config} {outputName : String} {m : Machine}
    (h : Machine.Reached config outputName knownTerms m) : m.store.All m.store.Known :=
  (Regimen.kept_of_reached knowing_admits (.empty trivial) trivial h).store

namespace Store

variable {s t u : Store} {v w : Value} {own more : Reserve} {a : Address} {x : Symbol}

/-- The reserve is in the store, and nothing else in it refers to any of it. -/
structure Secludes (s : Store) (own : Reserve) : Prop where
  pair_lt : ∀ a, own.pairs a → a < s.pairs.size
  closure_lt : ∀ a, own.closures a → a < s.closures.size
  stamp : ∀ p i, own.stamps p i → i < maxUses ∧ s.Before p i
  car : ∀ a, ¬ own.pairs a → ¬ own.Has (s.pairAt a).car
  cdr : ∀ a, ¬ own.pairs a → ¬ own.Has (s.pairAt a).cdr
  item : ∀ a, ∀ v ∈ (s.vectorAt a).toList, ¬ own.Has v
  body : ∀ a, ¬ own.closures a → ∀ v ∈ (s.closureAt a).body, ¬ own.Has v
  promise : ∀ a, ¬ own.Has (s.promiseAt a).content
  binding : ∀ f, ∀ b ∈ (s.frameAt f).bindings, ¬ own.Has (.symbol b.1) → ¬ own.Has b.2
  constant : ∀ f, ∀ m ∈ (s.frameAt f).transformers, ∀ v ∈ m.2.constants, ¬ own.Has v

structure Spares (own : Reserve) (s t : Store) : Prop where
  pairs_le : s.pairs.size ≤ t.pairs.size
  closures_le : s.closures.size ≤ t.closures.size
  frames_le : s.frames.size ≤ t.frames.size
  pairAt_eq : ∀ a, own.pairs a → t.pairAt a = s.pairAt a
  closureAt_eq : ∀ a, own.closures a → t.closureAt a = s.closureAt a
  bound_eq : ∀ f < s.frames.size, ∀ x, own.Has (.symbol x) → t.bound? f x = s.bound? f x

namespace Spares

theorem refl (s : Store) : Spares own s s :=
  ⟨Nat.le_refl _, Nat.le_refl _, Nat.le_refl _, fun _ _ => rfl, fun _ _ => rfl, fun _ _ _ _ => rfl⟩

theorem trans (h : Spares own s t) (k : Spares own t u) : Spares own s u where
  pairs_le := Nat.le_trans h.pairs_le k.pairs_le
  closures_le := Nat.le_trans h.closures_le k.closures_le
  frames_le := Nat.le_trans h.frames_le k.frames_le
  pairAt_eq a ha := (k.pairAt_eq a ha).trans (h.pairAt_eq a ha)
  closureAt_eq a ha := (k.closureAt_eq a ha).trans (h.closureAt_eq a ha)
  bound_eq f hf x hx := (k.bound_eq f (Nat.lt_of_lt_of_le hf h.frames_le) x hx).trans
    (h.bound_eq f hf x hx)

theorem le (h : Spares more s t) (hle : own.Le more) : Spares own s t where
  pairs_le := h.pairs_le
  closures_le := h.closures_le
  frames_le := h.frames_le
  pairAt_eq a ha := h.pairAt_eq a (hle.pairs a ha)
  closureAt_eq a ha := h.closureAt_eq a (hle.closures a ha)
  bound_eq f hf x hx := h.bound_eq f hf x (hle.has hx)

theorem of_eq (hp : t.pairs = s.pairs) (hc : t.closures = s.closures) (hf : t.frames = s.frames) :
    Spares own s t where
  pairs_le := Nat.le_of_eq (by rw [hp])
  closures_le := Nat.le_of_eq (by rw [hc])
  frames_le := Nat.le_of_eq (by rw [hf])
  pairAt_eq _ _ := by rw [pairAt, pairAt, hp]
  closureAt_eq _ _ := by rw [closureAt, closureAt, hc]
  bound_eq _ _ _ _ := by rw [bound?, bound?, frameAt, frameAt, hf]

end Spares

theorem closureAt_push {c : Closure} :
    ({ s with closures := s.closures.push c } : Store).closureAt a =
    if a = s.closures.size then c else s.closureAt a := by
  simp only [closureAt, Array.getD_eq_getD_getElem?, Array.getElem?_push]
  split <;> rfl

namespace Secludes

theorem none (s : Store) : s.Secludes .none where
  pair_lt _ ha := ha.elim
  closure_lt _ ha := ha.elim
  stamp _ _ hp := hp.elim
  car _ _ := Reserve.not_has_none
  cdr _ _ := Reserve.not_has_none
  item _ _ _ := Reserve.not_has_none
  body _ _ _ _ := Reserve.not_has_none
  promise _ := Reserve.not_has_none
  binding _ _ _ _ := Reserve.not_has_none
  constant _ _ _ _ _ := Reserve.not_has_none

theorem slot (h : s.Secludes own) (hv : ¬ own.Has v) (hw : s.Slot v w) : ¬ own.Has w := by
  cases hw with
  | car => exact h.car _ hv
  | cdr => exact h.cdr _ hv
  | item hitem => exact h.item _ _ hitem

theorem push_pair {p : Pair} (h : s.Secludes own) (hcar : ¬ own.Has p.car)
    (hcdr : ¬ own.Has p.cdr) :
    { s with pairs := s.pairs.push p }.Secludes own :=
  { h with
    pair_lt := fun a ha => Nat.lt_of_lt_of_le (h.pair_lt a ha) (by simp)
    car := fun a ha => by
      rw [pairAt_push]
      split
      · exact hcar
      · exact h.car a ha
    cdr := fun a ha => by
      rw [pairAt_push]
      split
      · exact hcdr
      · exact h.cdr a ha }

theorem modify_pair {change : Pair → Pair} (h : s.Secludes own)
    (hcar : ¬ own.Has (change (s.pairAt a)).car) (hcdr : ¬ own.Has (change (s.pairAt a)).cdr) :
    { s with pairs := s.pairs.modify a change }.Secludes own :=
  { h with
    pair_lt := fun b hb => by simpa using h.pair_lt b hb
    car := fun b hb => by
      rw [pairAt_modify]
      split
      · rename_i hab
        obtain ⟨rfl, -⟩ := hab
        exact hcar
      · exact h.car b hb
    cdr := fun b hb => by
      rw [pairAt_modify]
      split
      · rename_i hab
        obtain ⟨rfl, -⟩ := hab
        exact hcdr
      · exact h.cdr b hb }

theorem push_vector {items : Array Value} (h : s.Secludes own)
    (hitems : ∀ v ∈ items.toList, ¬ own.Has v) :
    { s with vectors := s.vectors.push items }.Secludes own :=
  { h with
    item := forall_getD_push (P := fun items : Array Value => ∀ v ∈ items.toList, ¬ own.Has v)
      h.item hitems }

theorem modify_vector {change : Array Value → Array Value} (h : s.Secludes own)
    (hitems : ∀ v ∈ (change (s.vectorAt a)).toList, ¬ own.Has v) :
    { s with vectors := s.vectors.modify a change }.Secludes own :=
  { h with
    item := forall_getD_modify (P := fun items : Array Value => ∀ v ∈ items.toList, ¬ own.Has v)
      h.item hitems }

theorem push_closure {c : Closure} (h : s.Secludes own) (hbody : ∀ v ∈ c.body, ¬ own.Has v) :
    { s with closures := s.closures.push c }.Secludes own :=
  { h with
    closure_lt := fun a ha => Nat.lt_of_lt_of_le (h.closure_lt a ha) (by simp)
    body := fun a ha => by
      rw [closureAt_push]
      split
      · exact hbody
      · exact h.body a ha }

theorem push_promise {p : Promise} (h : s.Secludes own) (hp : ¬ own.Has p.content) :
    { s with promises := s.promises.push p }.Secludes own :=
  { h with promise := forall_getD_push (P := fun p : Promise => ¬ own.Has p.content) h.promise hp }

theorem set_promise {p : Promise} (h : s.Secludes own) (hp : ¬ own.Has p.content) :
    { s with promises := s.promises.setIfInBounds a p }.Secludes own :=
  { h with
    promise :=
      forall_getD_setIfInBounds (P := fun p : Promise => ¬ own.Has p.content) h.promise hp }

theorem push_frame {bindings : List (Symbol × Value)} (h : s.Secludes own)
    (hbindings : ∀ b ∈ bindings, ¬ own.Has (.symbol b.1) → ¬ own.Has b.2) :
    { s with frames := s.frames.push ⟨bindings, []⟩ }.Secludes own :=
  { h with
    binding := forall_getD_push (P := fun f : Frame => ∀ b ∈ f.bindings,
      ¬ own.Has (.symbol b.1) → ¬ own.Has b.2) h.binding hbindings
    constant := forall_getD_push (P := fun f : Frame => ∀ m ∈ f.transformers,
      ∀ v ∈ m.2.constants, ¬ own.Has v) h.constant (by simp) }

theorem bind (h : s.Secludes own) (f : Address) (x : Symbol)
    (hv : ¬ own.Has (.symbol x) → ¬ own.Has v) : (s.bind f x v).Secludes own :=
  { h with
    binding := forall_getD_modify (P := fun f : Frame => ∀ b ∈ f.bindings,
      ¬ own.Has (.symbol b.1) → ¬ own.Has b.2) h.binding fun b hb => by
        rcases mem_insertEntry hb with rfl | hb
        · exact hv
        · exact h.binding f b hb
    constant := forall_getD_modify (P := fun f : Frame => ∀ m ∈ f.transformers,
      ∀ v ∈ m.2.constants, ¬ own.Has v) h.constant (h.constant f) }

theorem install {m : Transformer} (h : s.Secludes own) (env : Environment)
    (hm : ∀ v ∈ m.constants, ¬ own.Has v) : (s.install env m).Secludes own :=
  { h with
    binding := forall_getD_modify (P := fun f : Frame => ∀ b ∈ f.bindings,
      ¬ own.Has (.symbol b.1) → ¬ own.Has b.2) h.binding (h.binding _)
    constant := forall_getD_modify (P := fun f : Frame => ∀ m ∈ f.transformers,
      ∀ v ∈ m.2.constants, ¬ own.Has v) h.constant fun p hp => by
        rcases List.mem_cons.mp hp with rfl | hp
        · exact hm
        · exact h.constant _ p hp }

theorem count (h : s.Secludes own) {phase uses : Nat}
    (hcounters : s.phase < phase ∨ s.phase = phase ∧ min s.uses maxUses ≤ uses) :
    { s with phase := phase, uses := uses }.Secludes own :=
  { h with
    stamp := fun p i hp => by
      obtain ⟨hi, hbefore⟩ := h.stamp p i hp
      exact ⟨hi, hbefore.outgrows ⟨Nat.le_refl _, Nat.le_refl _, hcounters⟩⟩ }

theorem next (h : s.Secludes own) : ¬ own.stamps s.phase s.uses := by
  intro hstamp
  obtain ⟨hi, hbefore | ⟨-, hbefore⟩⟩ := h.stamp _ _ hstamp <;> omega

end Secludes

theorem spares_bind {f : Address} (hx : ¬ own.Has (.symbol x)) : Spares own s (s.bind f x v) where
  pairs_le := Nat.le_refl _
  closures_le := Nat.le_refl _
  frames_le := by simp [Store.bind, modifyFrame]
  pairAt_eq _ _ := rfl
  closureAt_eq _ _ := rfl
  bound_eq g _ y hy := by
    rw [bound?_bind, if_neg]
    rintro ⟨-, -, rfl⟩
    exact hx hy

theorem Secludes.not_has_next (h : s.Secludes own) : ¬ own.Has (.closure s.closures.size) :=
  fun hown => Nat.lt_irrefl _ (h.closure_lt _ hown)

theorem Secludes.spares_closure (h : s.Secludes own) (c : Closure) :
    Spares own s { s with closures := s.closures.push c } where
  pairs_le := Nat.le_refl _
  closures_le := by simp
  frames_le := Nat.le_refl _
  pairAt_eq _ _ := rfl
  closureAt_eq a ha := by rw [closureAt_push, if_neg (Nat.ne_of_lt (h.closure_lt a ha))]
  bound_eq _ _ _ _ := rfl

theorem spares_install (env : Environment) (m : Transformer) : Spares own s (s.install env m) where
  pairs_le := Nat.le_refl _
  closures_le := Nat.le_refl _
  frames_le := by simp [Store.install, modifyFrame]
  pairAt_eq _ _ := rfl
  closureAt_eq _ _ := rfl
  bound_eq f _ x _ := by
    rw [bound?, bound?, Store.install, frameAt_modifyFrame]
    split <;> rfl

end Store

open Store in
def secluding (own : Reserve) : Blind where
  Holds s := s.Secludes own
  Data _ v := ¬ own.Has v
  Leads := Store.Spares own
  refl := .refl
  trans := .trans
  data_leads _ hv := hv
  constant hv _ _ hclosure := Reserve.not_has_constant hv hclosure
  name _ := Reserve.not_has_unstamped rfl
  slot hs hv hw := hs.slot hv hw
  cons {s car cdr} hs hcar hcdr := by
    refine ⟨⟨hs.push_pair hcar hcdr, ?_⟩, fun hpair => Nat.lt_irrefl _ (hs.pair_lt _ hpair)⟩
    refine ⟨by simp, Nat.le_refl _, Nat.le_refl _, fun a ha => ?_, fun _ _ => rfl,
      fun _ _ _ _ => rfl⟩
    rw [pairAt_push, if_neg (Nat.ne_of_lt (hs.pair_lt a ha))]
  vector hs hitems := ⟨⟨hs.push_vector hitems, .of_eq rfl rfl rfl⟩, id⟩
  Variable x := ¬ own.Has (.symbol x)
  variable_unstamped _ := Reserve.not_has_unstamped rfl
  bound hs hx hb := hs.binding _ _ hb hx
  promised a hs := hs.promise a
  promise hs hv := ⟨⟨hs.push_promise hv, .of_eq rfl rfl rfl⟩, id⟩
  child {s bindings} _ hs _ hbindings := by
    refine ⟨⟨hs.push_frame fun b hb _ => hbindings b hb, ?_⟩, trivial⟩
    refine ⟨Nat.le_refl _, Nat.le_refl _, by simp, fun _ _ => rfl, fun _ _ => rfl, ?_⟩
    exact fun f hf x _ => keepsBindings_push ⟨bindings, []⟩ f hf x
  setPair {s a change} hs ha hcar hcdr := by
    refine ⟨hs.modify_pair hcar hcdr, by simp, Nat.le_refl _, Nat.le_refl _, fun b hb => ?_,
      fun _ _ => rfl, fun _ _ _ _ => rfl⟩
    rw [pairAt_modify, if_neg]
    rintro ⟨rfl, -⟩
    exact ha hb
  setVector hs _ hitems := ⟨hs.modify_vector hitems, .of_eq rfl rfl rfl⟩
  settle _ hs _ hv := ⟨hs.set_promise hv, .of_eq rfl rfl rfl⟩
  bind f x hx hs hv := ⟨hs.bind f x fun _ => hv, spares_bind hx⟩
  string _ hs := ⟨{ hs with }, .of_eq rfl rfl rfl⟩
  emit _ hs := ⟨{ hs with }, .of_eq rfl rfl rfl⟩
  exit hs := ⟨⟨{ hs with }, .of_eq rfl rfl rfl⟩, id⟩
  Stamp _ p i := ¬ own.stamps p i
  stamp_leads _ hp := hp
  symbol _ hstamp hx := hstamp hx.1 hx.2
  use hs := ⟨⟨hs.count (.inr ⟨rfl, by omega⟩), .of_eq rfl rfl rfl⟩, hs.next⟩
  phase hs := ⟨hs.count (.inl (Nat.lt_succ_self _)), .of_eq rfl rfl rfl⟩
  install env _ hs _ _ hm := ⟨hs.install env hm, spares_install env _⟩
  constants hs hm v hv := hs.constant _ _ hm v hv
  body a hs ha := hs.body a ha
  closure hs _ _ hbody := ⟨⟨hs.push_closure hbody, hs.spares_closure _⟩, hs.not_has_next⟩
  named := id

namespace Store

variable {s t u : Store} {v w : Value} {own more most : Reserve} {a : Address}

/-- From the first store to the second the reserve was left alone, and at most grew by what is
new. -/
structure Reserves (s : Store) (own : Reserve) (t : Store) (more : Reserve) : Prop where
  le : own.Le more
  fresh : ∀ v, more.Has v → own.Has v ∨ ¬ s.Known v
  outgrows : s.Outgrows t
  spares : Spares own s t
  secludes : t.Secludes more
  known : t.All t.Known

structure Guest (s : Store) (own : Reserve) (v : Value) : Prop where
  known : s.Known v
  apart : ¬ own.Has v

namespace Reserves

theorem refl (hs : s.Secludes own) (hknown : s.All s.Known) : s.Reserves own s own :=
  ⟨.refl own, fun _ => .inl, .refl s, .refl s, hs, hknown⟩

theorem trans (h : s.Reserves own t more) (k : t.Reserves more u most) :
    s.Reserves own u most where
  le := h.le.trans k.le
  fresh v hv := by
    rcases k.fresh v hv with hv | hv
    · exact h.fresh v hv
    · exact .inr fun hknown => hv (hknown.outgrows h.outgrows)
  outgrows := h.outgrows.trans k.outgrows
  spares := h.spares.trans (k.spares.le h.le)
  secludes := k.secludes
  known := k.known

theorem guest (h : s.Reserves own t more) (hv : s.Guest own v) : t.Guest more v :=
  ⟨hv.known.outgrows h.outgrows, fun hmore =>
    (h.fresh v hmore).elim hv.apart fun hnew => hnew hv.known⟩

theorem of_kept (hsecluded : t.Secludes own ∧ Spares own s t)
    (hknown : t.All t.Known ∧ s.Outgrows t) : s.Reserves own t own :=
  ⟨.refl own, fun _ => .inl, hknown.2, hsecluded.2, hsecluded.1, hknown.1⟩

end Reserves

namespace Secludes

variable (h : s.Secludes own) (hknown : s.All s.Known)

include h hknown

theorem withPair {p : Pair} (hcar : s.Known p.car) (hcdr : s.Known p.cdr) :
    s.Reserves own { s with pairs := s.pairs.push p } (own.withPair s.pairs.size) where
  le := Reserve.le_withPair
  fresh v hv := by
    rcases Reserve.has_withPair.mp hv with rfl | hv
    · exact .inr (Nat.lt_irrefl _)
    · exact .inl hv
  outgrows := (knowing.cons hknown hcar hcdr).1.2
  spares := by
    refine ⟨by simp, Nat.le_refl _, Nat.le_refl _, fun a ha => ?_, fun _ _ => rfl,
      fun _ _ _ _ => rfl⟩
    rw [pairAt_push, if_neg (Nat.ne_of_lt (h.pair_lt a ha))]
  secludes := by
    have hnew : ∀ {v}, ¬ own.Has v → s.Known v → ¬ (own.withPair s.pairs.size).Has v :=
      fun hv hknown => mt Reserve.has_withPair.mp (not_or.mpr ⟨hknown.ne_pair, hv⟩)
    refine
      { pair_lt := ?_, closure_lt := h.closure_lt, stamp := h.stamp, car := ?_, cdr := ?_
        item := fun a v hv => hnew (h.item a v hv) (hknown.item a v hv)
        body := fun a ha v hv => hnew (h.body a ha v hv) (hknown.body a v hv)
        promise := fun a => hnew (h.promise a) (hknown.promise a)
        binding := fun f b hb hx =>
          hnew (h.binding f b hb fun hown => hx (Reserve.le_withPair.has hown))
            (hknown.binding f b hb)
        constant := fun f m hm v hv => hnew (h.constant f m hm v hv) (hknown.constant f m hm v hv) }
    · rintro a (rfl | ha)
      · simp
      · exact Nat.lt_of_lt_of_le (h.pair_lt a ha) (by simp)
    · intro a ha
      obtain ⟨hne, hown⟩ := not_or.mp ha
      rw [pairAt_push, if_neg hne]
      exact hnew (h.car a hown) (hknown.car a)
    · intro a ha
      obtain ⟨hne, hown⟩ := not_or.mp ha
      rw [pairAt_push, if_neg hne]
      exact hnew (h.cdr a hown) (hknown.cdr a)
  known := (knowing.cons hknown hcar hcdr).1.1

theorem withClosure {c : Closure} (hbody : ∀ v ∈ c.body, s.Known v) :
    s.Reserves own { s with closures := s.closures.push c }
      (own.withClosure s.closures.size) where
  le := Reserve.le_withClosure
  fresh v hv := by
    rcases Reserve.has_withClosure.mp hv with rfl | hv
    · exact .inr (Nat.lt_irrefl _)
    · exact .inl hv
  outgrows := outgrows_closure c
  spares := h.spares_closure c
  secludes := by
    have hnew : ∀ {v}, ¬ own.Has v → s.Known v → ¬ (own.withClosure s.closures.size).Has v :=
      fun hv hknown => mt Reserve.has_withClosure.mp (not_or.mpr ⟨hknown.ne_closure, hv⟩)
    refine
      { pair_lt := h.pair_lt, closure_lt := ?_, stamp := h.stamp, body := ?_
        car := fun a ha => hnew (h.car a ha) (hknown.car a)
        cdr := fun a ha => hnew (h.cdr a ha) (hknown.cdr a)
        item := fun a v hv => hnew (h.item a v hv) (hknown.item a v hv)
        promise := fun a => hnew (h.promise a) (hknown.promise a)
        binding := fun f b hb hx =>
          hnew (h.binding f b hb fun hown => hx (Reserve.le_withClosure.has hown))
            (hknown.binding f b hb)
        constant := fun f m hm v hv => hnew (h.constant f m hm v hv) (hknown.constant f m hm v hv) }
    · rintro a (rfl | ha)
      · simp
      · exact Nat.lt_of_lt_of_le (h.closure_lt a ha) (by simp)
    · intro a ha
      obtain ⟨hne, hown⟩ := not_or.mp ha
      rw [closureAt_push, if_neg hne]
      exact fun v hv => hnew (h.body a hown v hv) (hknown.body a v hv)
  known := known_closure hknown hbody

theorem withStamp (huses : s.uses < maxUses) :
    s.Reserves own { s with uses := min (s.uses + 1) maxUses }
      (own.withStamp s.phase s.uses) where
  le := Reserve.le_withStamp
  fresh v hv := by
    rcases Reserve.has_withStamp.mp hv with ⟨x, rfl, hx, hstamp⟩ | hv
    · exact .inr fun hknown => hknown.ne_next hx huses hstamp
    · exact .inl hv
  outgrows := outgrows_use
  spares := .of_eq rfl rfl rfl
  secludes := by
    have hnew : ∀ {v}, ¬ own.Has v → s.Known v → ¬ (own.withStamp s.phase s.uses).Has v := by
      intro v hv hknown hmore
      rcases Reserve.has_withStamp.mp hmore with ⟨x, rfl, hx, hstamp⟩ | hown
      · exact hknown.ne_next hx huses hstamp
      · exact hv hown
    exact
      { pair_lt := h.pair_lt, closure_lt := h.closure_lt
        stamp := by
          rintro p i (⟨rfl, rfl⟩ | hp)
          · exact ⟨huses, before_use⟩
          · exact ⟨(h.stamp p i hp).1, (h.stamp p i hp).2.outgrows outgrows_use⟩
        car := fun a ha => hnew (h.car a ha) (hknown.car a)
        cdr := fun a ha => hnew (h.cdr a ha) (hknown.cdr a)
        item := fun a v hv => hnew (h.item a v hv) (hknown.item a v hv)
        body := fun a ha v hv => hnew (h.body a ha v hv) (hknown.body a v hv)
        promise := fun a => hnew (h.promise a) (hknown.promise a)
        binding := fun f b hb hx =>
          hnew (h.binding f b hb fun hown => hx (Reserve.le_withStamp.has hown))
            (hknown.binding f b hb)
        constant := fun f m hm v hv => hnew (h.constant f m hm v hv) (hknown.constant f m hm v hv) }
  known := (knowing.use hknown).1.1

end Secludes

end Store

end HygienicScheme
