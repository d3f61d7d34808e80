import HygienicScheme.Proofs.Store.Bindings

/-!
# Which binding an identifier means

A variable is read by one walk over the frames of an environment and assigned to by another. Which
binding it means is told here without a walk: the nearest one of exactly this identifier, and the
nearest one of its bare name only where no frame of the chain has the identifier itself. Both walks
come to that binding, so an assignment is seen by the identifiers that mean the same binding, in
whatever environments they stand, and by no others.
-/
namespace HygienicScheme

namespace Store

def Nearest (s : Store) (key : Symbol) (chain : List Address) (f : Address) : Prop :=
  ∃ inner outer, chain = inner ++ f :: outer ∧ (∀ g ∈ inner, s.bound? g key = none) ∧
    (s.bound? f key).isSome

/-- The identifier means the binding of this key in this frame. -/
inductive Resolves (s : Store) (e : Environment) (x : Symbol) : Address → Symbol → Prop
  | itself {f : Address} (h : s.Nearest x e.chain f) : Resolves s e x f x
  | bare {f : Address} (hx : x.isStamped) (hnone : ∀ g ∈ e.chain, s.bound? g x = none)
      (h : s.Nearest x.unstamped e.chain f) : Resolves s e x f x.unstamped

variable {s : Store} {e e' : Environment} {x y key : Symbol} {f g : Address} {v w : Value}
  {chain : List Address}

theorem frameOf?_cons : s.frameOf? key (f :: chain) =
    if (s.bound? f key).isSome then some f else s.frameOf? key chain := by
  rw [frameOf?, any_eq_isSome_lookup]
  rfl

theorem frameOf?_eq_none : s.frameOf? key chain = none ↔ ∀ g ∈ chain, s.bound? g key = none := by
  induction chain with
  | nil => simp [frameOf?]
  | cons f more ih =>
    rw [frameOf?_cons, List.forall_mem_cons, ← ih]
    cases hbound : s.bound? f key <;> simp

theorem frameOf?_eq_some : s.frameOf? key chain = some f ↔ s.Nearest key chain f := by
  constructor
  · intro h
    induction chain with
    | nil => cases h
    | cons g more ih =>
      rw [frameOf?_cons] at h
      split at h
      · rename_i hbound
        obtain rfl := Option.some.inj h
        exact ⟨[], more, rfl, List.forall_mem_nil _, hbound⟩
      · rename_i hbound
        obtain ⟨inner, outer, rfl, hinner, hf⟩ := ih h
        exact ⟨g :: inner, outer, rfl,
          List.forall_mem_cons.mpr ⟨Option.not_isSome_iff_eq_none.mp hbound, hinner⟩, hf⟩
  · rintro ⟨inner, outer, rfl, hinner, hf⟩
    induction inner with
    | nil => rw [List.nil_append, frameOf?_cons, if_pos hf]
    | cons g more ih =>
      obtain ⟨hg, hmore⟩ := List.forall_mem_cons.mp hinner
      rw [List.cons_append, frameOf?_cons, if_neg (Option.not_isSome_iff_eq_none.mpr hg), ih hmore]

theorem resolve?_eq_some : s.resolve? e x = some (f, key) ↔ s.Resolves e x f key := by
  unfold resolve?
  constructor
  · intro h
    split at h
    · rename_i hframe
      cases h
      exact .itself (frameOf?_eq_some.mp hframe)
    · rename_i hframe
      split at h
      · rename_i hx
        obtain ⟨f, hbare, hslot⟩ := Option.map_eq_some_iff.mp h
        cases hslot
        exact .bare hx (frameOf?_eq_none.mp hframe) (frameOf?_eq_some.mp hbare)
      · cases h
  · intro h
    cases h with
    | itself h => rw [frameOf?_eq_some.mpr h]
    | bare hx hnone h =>
      rw [frameOf?_eq_none.mpr hnone, frameOf?_eq_some.mpr h]
      exact if_pos hx

theorem Resolves.unique (h : s.Resolves e x f key) (k : s.Resolves e x g y) :
    g = f ∧ y = key := by
  have hslots := (resolve?_eq_some.mpr k).symm.trans (resolve?_eq_some.mpr h)
  cases hslots
  exact ⟨rfl, rfl⟩

theorem Resolves.bound (h : s.Resolves e x f key) : (s.bound? f key).isSome := by
  cases h with
  | itself h | bare _ _ h =>
    obtain ⟨_, _, _, _, hf⟩ := h
    exact hf

theorem Resolves.eq_of_user (h : s.Resolves e x f key) (hx : ¬ x.isStamped) : key = x := by
  cases h with
  | itself => rfl
  | bare hstamped => exact absurd hstamped hx

theorem lookupExact?_cons : s.lookupExact? key (f :: chain) =
    (s.bound? f key).or (s.lookupExact? key chain) := by
  rw [lookupExact?, bound?]
  cases (s.frameAt f).bindings.lookup key <;> rfl

theorem lookupExact?_eq : s.lookupExact? key chain =
    (s.frameOf? key chain).bind fun f => s.bound? f key := by
  induction chain with
  | nil => rfl
  | cons f more ih =>
    rw [lookupExact?_cons, frameOf?_cons, ih]
    cases hbound : s.bound? f key <;> simp [hbound]

theorem lookup?_eq : s.lookup? e x = (s.resolve? e x).bind fun slot => s.bound? slot.1 slot.2 := by
  unfold lookup? resolve?
  rw [lookupExact?_eq, lookupExact?_eq]
  cases hframe : s.frameOf? x e.chain with
  | some f =>
    obtain ⟨_, _, _, _, hf⟩ := frameOf?_eq_some.mp hframe
    obtain ⟨v, hv⟩ := Option.isSome_iff_exists.mp hf
    simp [hv]
  | none =>
    cases x.isStamped with
    | false => rfl
    | true => cases s.frameOf? x.unstamped e.chain <;> rfl

theorem frameOf?_beyond {t : Store} {inner : List Address}
    (hsame : ∀ g, t.bound? g key = s.bound? g key) (hnew : ∀ f ∈ inner, s.bound? f key = none) :
    t.frameOf? key (inner ++ chain) = s.frameOf? key chain := by
  induction inner with
  | nil =>
    rw [List.nil_append]
    induction chain with
    | nil => rfl
    | cons f more ih => rw [frameOf?_cons, frameOf?_cons, hsame, ih]
  | cons f more ih =>
    obtain ⟨hf, hmore⟩ := List.forall_mem_cons.mp hnew
    rw [List.cons_append, frameOf?_cons, hsame, hf, ih hmore]
    rfl

/-- Beyond such frames an identifier means what it meant, if no frame binds it to anything else. -/
theorem means_beyond {t : Store} {inner : List Address} (hchain : e'.chain = inner ++ e.chain)
    (hsame : ∀ key, key = x ∨ key = x.unstamped → ∀ g, t.bound? g key = s.bound? g key)
    (hnew : ∀ f ∈ inner, ∀ key, s.bound? f key = none) :
    t.lookup? e' x = s.lookup? e x ∧ t.resolve? e' x = s.resolve? e x := by
  have hframe : ∀ key, key = x ∨ key = x.unstamped →
      t.frameOf? key e'.chain = s.frameOf? key e.chain := fun key hkey =>
    hchain ▸ frameOf?_beyond (hsame key hkey) fun f hf => hnew f hf key
  have hexact : ∀ key, key = x ∨ key = x.unstamped →
      t.lookupExact? key e'.chain = s.lookupExact? key e.chain := by
    intro key hkey
    rw [lookupExact?_eq, lookupExact?_eq, hframe key hkey]
    simp only [hsame key hkey]
  constructor
  · rw [lookup?, lookup?, hexact x (.inl rfl), hexact x.unstamped (.inr rfl)]
  · rw [resolve?, resolve?, hframe x (.inl rfl), hframe x.unstamped (.inr rfl)]

theorem lookup?_eq_some :
    s.lookup? e x = some v ↔ ∃ f key, s.Resolves e x f key ∧ s.bound? f key = some v := by
  rw [lookup?_eq, Option.bind_eq_some_iff]
  simp only [Prod.exists, resolve?_eq_some]

theorem isSome_lookup? : (s.lookup? e x).isSome ↔ ∃ f key, s.Resolves e x f key := by
  rw [Option.isSome_iff_exists]
  simp only [lookup?_eq_some]
  constructor
  · rintro ⟨_, f, key, h, -⟩
    exact ⟨f, key, h⟩
  · rintro ⟨f, key, h⟩
    obtain ⟨v, hv⟩ := Option.isSome_iff_exists.mp h.bound
    exact ⟨v, f, key, h, hv⟩

theorem resolves_bind (h : (s.bound? f key).isSome) :
    (s.bind f key v).Resolves e x g y ↔ s.Resolves e x g y := by
  have hsome : ∀ g y, ((s.bind f key v).bound? g y).isSome = (s.bound? g y).isSome := by
    intro g y
    rw [bound?_bind]
    split
    · rename_i hslot
      obtain ⟨-, rfl, rfl⟩ := hslot
      exact h.symm
    · rfl
  have hframe : ∀ y chain, (s.bind f key v).frameOf? y chain = s.frameOf? y chain := by
    intro y chain
    induction chain with
    | nil => rfl
    | cons g more ih => rw [frameOf?_cons, frameOf?_cons, hsome, ih]
  rw [← resolve?_eq_some, ← resolve?_eq_some, resolve?, resolve?, hframe, hframe]

end Store

namespace Action

variable {s t : Store} {e : Environment} {x key : Symbol} {f : Address} {v : Value}

theorem assign_resolved (h : s.Resolves e x f key) : assign e x v s = .ok () (s.bind f key v) := by
  rw [assign, inspect_bind, Store.resolve?_eq_some.mpr h]
  rfl

theorem assign_unbound (h : s.lookup? e x = none) :
    assign e x v s = .error (.unbound x.name) s := by
  have hresolve : s.resolve? e x = none := by
    rw [Option.eq_none_iff_forall_ne_some]
    rintro ⟨f, key⟩ hslot
    have hsome := Store.isSome_lookup?.mpr ⟨f, key, Store.resolve?_eq_some.mp hslot⟩
    rw [h] at hsome
    cases hsome
  rw [assign, inspect_bind, hresolve]
  rfl

end Action

/-- Reading and assigning have to do with one and the same binding. -/
structure AssignsRead (s : Store) (e : Environment) (x : Symbol) (v : Value) : Prop where
  /-- What is read is the value of the binding that is meant. -/
  reads_iff : ∀ w, s.lookup? e x = some w ↔
    ∃ f key, s.Resolves e x f key ∧ s.bound? f key = some w
  /-- An identifier means one binding, and one without a stamp never one with a stamp. -/
  one_binding : ∀ f key, s.Resolves e x f key →
    (∀ g y, s.Resolves e x g y → g = f ∧ y = key) ∧ (¬ x.isStamped → key = x)
  succeeds_iff : (∃ t, Action.assign e x v s = .ok () t) ↔ (s.lookup? e x).isSome
  fails : s.lookup? e x = none → Action.assign e x v s = .error (.unbound x.name) s
  /-- The binding that is meant gets the value, and every other keeps its own. -/
  writes : ∀ t f key, Action.assign e x v s = .ok () t → s.Resolves e x f key →
    ∀ g y, t.bound? g y = if g = f ∧ y = key then some v else s.bound? g y
  reads_back : ∀ t, Action.assign e x v s = .ok () t → t.lookup? e x = some v
  seen : ∀ t f key, Action.assign e x v s = .ok () t → s.Resolves e x f key → ∀ e' y,
    (s.Resolves e' y f key → t.lookup? e' y = some v) ∧
      (¬ s.Resolves e' y f key → t.lookup? e' y = s.lookup? e' y)

/-- They do for all identifiers, whatever the frames of a store and the environments in them are. -/
theorem assigns_read (s : Store) (e : Environment) (x : Symbol) (v : Value) :
    AssignsRead s e x v := by
  have hassigned : ∀ t, Action.assign e x v s = .ok () t →
      ∃ f key, s.Resolves e x f key ∧ t = s.bind f key v := by
    intro t h
    cases hlookup : s.lookup? e x with
    | none =>
      rw [Action.assign_unbound hlookup] at h
      cases h
    | some w =>
      obtain ⟨f, key, hslot, -⟩ := Store.lookup?_eq_some.mp hlookup
      rw [Action.assign_resolved hslot] at h
      cases h
      exact ⟨f, key, hslot, rfl⟩
  have hwrites : ∀ t f key, Action.assign e x v s = .ok () t → s.Resolves e x f key →
      t = s.bind f key v ∧
        ∀ g y, t.bound? g y = if g = f ∧ y = key then some v else s.bound? g y := by
    intro t f key h hslot
    obtain ⟨f', key', hslot', rfl⟩ := hassigned t h
    obtain ⟨rfl, rfl⟩ := hslot.unique hslot'
    obtain ⟨w, hw⟩ := Option.isSome_iff_exists.mp hslot.bound
    refine ⟨rfl, fun g y => ?_⟩
    rw [Store.bound?_bind]
    simp only [Store.lt_of_bound hw, true_and]
  have hseen : ∀ t f key, Action.assign e x v s = .ok () t → s.Resolves e x f key → ∀ e' y,
      (s.Resolves e' y f key → t.lookup? e' y = some v) ∧
        (¬ s.Resolves e' y f key → t.lookup? e' y = s.lookup? e' y) := by
    intro t f key h hslot e' y
    obtain ⟨rfl, hbound⟩ := hwrites t f key h hslot
    refine ⟨fun hsame => ?_, fun hother => Option.ext fun w => ?_⟩
    · refine Store.lookup?_eq_some.mpr ⟨f, key, (Store.resolves_bind hslot.bound).mpr hsame, ?_⟩
      rw [hbound, if_pos ⟨rfl, rfl⟩]
    · -- The identifier means what it meant, and that is not the binding that was written.
      simp only [Store.lookup?_eq_some, Store.resolves_bind hslot.bound]
      refine exists_congr fun g => exists_congr fun z => and_congr_right fun hz => ?_
      rw [hbound, if_neg]
      rintro ⟨rfl, rfl⟩
      exact hother hz
  exact {
    reads_iff := fun _ => Store.lookup?_eq_some
    one_binding := fun f key h => ⟨fun g y k => h.unique k, h.eq_of_user⟩
    succeeds_iff := by
      rw [Store.isSome_lookup?]
      constructor
      · rintro ⟨t, h⟩
        obtain ⟨f, key, hslot, -⟩ := hassigned t h
        exact ⟨f, key, hslot⟩
      · rintro ⟨f, key, hslot⟩
        exact ⟨_, Action.assign_resolved hslot⟩
    fails := Action.assign_unbound
    writes := fun t f key h hslot => (hwrites t f key h hslot).2
    reads_back := by
      intro t h
      obtain ⟨f, key, hslot, -⟩ := hassigned t h
      exact (hseen t f key h hslot e x).1 hslot
    seen := hseen }

end HygienicScheme
