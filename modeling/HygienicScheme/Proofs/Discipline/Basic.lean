import HygienicScheme.Action
import HygienicScheme.Proofs.Expansion.Compiled
import HygienicScheme.Proofs.Store.Slots

/-!
# Disciplines

What a program keeps true of its values and of the store is mostly kept for one reason: it only
passes on what it was given, takes it out of cells and puts it into cells. A discipline says what is
kept, and that reading and building cells keeps it. That actions keep it follows for all disciplines
at once.
-/
namespace HygienicScheme

def Action.after {α : Type} : EStateM.Result Error Store α → Store
  | .ok _ s => s
  | .error _ s => s

namespace Action

variable {α β : Type}

theorem get_bind (f : Store → Action α) (s : Store) :
    ((MonadState.get : Action Store) >>= f) s = f s s := rfl

theorem inspect_bind (look : Store → α) (f : α → Action β) (s : Store) :
    (inspect look >>= f) s = f (look s) s := rfl

theorem ended_some_bind (a : α) (f : α → Action β) : (ended (some a) >>= f) = f a := rfl

theorem ok_bind (a : α) (f : α → Action β) (s : Store) :
    ((liftM (.ok a : Except Error α) : Action α) >>= f) s = f a s := rfl

theorem error_bind (e : Error) (f : α → Action β) (s : Store) :
    ((liftM (.error e : Except Error α) : Action α) >>= f) s = .error e s := rfl

theorem bind_ok {x : Action α} {a : α} {s t : Store} (h : x s = .ok a t) (f : α → Action β) :
    (x >>= f) s = f a t := by
  change EStateM.bind x f s = _
  unfold EStateM.bind
  rw [h]

theorem bind_error {x : Action α} {e : Error} {s t : Store} (h : x s = .error e t)
    (f : α → Action β) : (x >>= f) s = .error e t := by
  change EStateM.bind x f s = _
  unfold EStateM.bind
  rw [h]

theorem bind_congr {x y : Action α} {f g : α → Action β} {s : Store} (hx : x s = y s)
    (hf : ∀ a t, x s = .ok a t → f a t = g a t) : (x >>= f) s = (y >>= g) s := by
  cases h : x s with
  | ok a t => rw [bind_ok h, bind_ok (hx.symm.trans h), hf a t h]
  | error e t => rw [bind_error h, bind_error (hx.symm.trans h)]

theorem ok_of_bind {x : Action α} {f : α → Action β} {s u : Store} {b : β}
    (h : (x >>= f) s = .ok b u) : ∃ a t, x s = .ok a t ∧ f a t = .ok b u := by
  change EStateM.bind x f s = .ok b u at h
  unfold EStateM.bind at h
  cases hx : x s with
  | ok a t =>
    rw [hx] at h
    exact ⟨a, t, rfl, h⟩
  | error e t =>
    rw [hx] at h
    cases h

theorem lift_ok {b : Build α} {s t : Store} {a : α} (h : (liftM b : Action α) s = .ok a t) :
    b s = (a, t) := by
  change EStateM.Result.ok (b s).1 (b s).2 = _ at h
  cases h
  rfl

theorem ended_ok {a : Option α} {b : α} {s t : Store} (h : ended a s = .ok b t) :
    a = some b ∧ t = s := by
  cases a with
  | some a =>
    cases h
    exact ⟨rfl, rfl⟩
  | none => cases h

end Action

structure Discipline where
  Holds : Store → Prop
  Data : Store → Value → Prop
  Leads : Store → Store → Prop
  /-- The environments in which a program may expand and evaluate forms. -/
  Scope : Environment → Prop := fun _ => True
  refl : ∀ s, Leads s s
  trans : ∀ {s t u}, Leads s t → Leads t u → Leads s u
  data_leads : ∀ {s t v}, Leads s t → Data s v → Data t v
  constant : ∀ {s v}, v.isConstant → (∀ id, v ≠ .escape id) → (∀ a, v ≠ .promise a) →
    (∀ a, v ≠ .closure a) → Data s v
  name : ∀ {s} text, Data s (.name text)
  slot : ∀ {s v w}, Holds s → Data s v → s.Slot v w → Data s w
  cons : ∀ {s car cdr}, Holds s → Data s car → Data s cdr →
    let t := { s with pairs := s.pairs.push ⟨car, cdr⟩ }
    (Holds t ∧ Leads s t) ∧ Data t (.pair s.pairs.size)
  vector : ∀ {s items}, Holds s → (∀ v ∈ items.toList, Data s v) →
    let t := { s with vectors := s.vectors.push items }
    (Holds t ∧ Leads s t) ∧ Data t (.vector s.vectors.size)

namespace Discipline

variable {D : Discipline} {s t : Store} {v tail : Value} {items : List Value} {α β : Type}
  {Q : Store → α → Prop} {R : Store → β → Prop}

theorem car {a : Address} (hs : D.Holds s) (h : D.Data s (.pair a)) :
    D.Data s (s.pairAt a).car := D.slot hs h .car

theorem cdr {a : Address} (hs : D.Holds s) (h : D.Data s (.pair a)) :
    D.Data s (s.pairAt a).cdr := D.slot hs h .cdr

theorem item {a : Address} (hs : D.Holds s) (h : D.Data s (.vector a)) :
    ∀ v ∈ (s.vectorAt a).toList, D.Data s v := fun _ hv => D.slot hs h (.item hv)

theorem all_leads (hst : D.Leads s t) (h : ∀ v ∈ items, D.Data s v) : ∀ v ∈ items, D.Data t v :=
  fun v hv => D.data_leads hst (h v hv)

theorem chain (hs : D.Holds s) (h : D.Data s v) (hchain : s.Chain v items tail) :
    (∀ w ∈ items, D.Data s w) ∧ D.Data s tail := by
  induction hchain with
  | tail => exact ⟨by simp, h⟩
  | pair _ ih =>
    obtain ⟨hmore, htail⟩ := ih (D.cdr hs h)
    exact ⟨List.forall_mem_cons.mpr ⟨D.car hs h, hmore⟩, htail⟩

theorem properList (hs : D.Holds s) (h : D.Data s v) (hlist : s.properList? v = some items) :
    ∀ w ∈ items, D.Data s w := (D.chain hs h (Store.properList?_eq_some.mp hlist)).1

theorem null : D.Data s .null := D.constant rfl nofun nofun nofun

theorem unspecified : D.Data s .unspecified := D.constant rfl nofun nofun nofun

theorem bool (b : Bool) : D.Data s (.bool b) := D.constant rfl nofun nofun nofun

theorem int (n : Int64) : D.Data s (.int n) := D.constant rfl nofun nofun nofun

theorem char (c : Char) : D.Data s (.char c) := D.constant rfl nofun nofun nofun

variable (D) in
def Keeps (x : Action α) (s : Store) (Q : Store → α → Prop) : Prop :=
  (D.Holds (Action.after (x s)) ∧ D.Leads s (Action.after (x s))) ∧ ∀ a t, x s = .ok a t → Q t a

namespace Keeps

theorem of_ok {x : Action α} {a : α} (h : D.Keeps x s Q) (hx : x s = .ok a t) :
    (D.Holds t ∧ D.Leads s t) ∧ Q t a := by
  refine ⟨?_, h.2 a t hx⟩
  have hafter := h.1
  rwa [hx] at hafter

theorem of_error {x : Action α} {e : Error} (h : D.Keeps x s Q) (hx : x s = .error e t) :
    D.Holds t ∧ D.Leads s t := by
  have hafter := h.1
  rwa [hx] at hafter

theorem of_eq {x y : Action α} (hxy : x s = y s) (h : D.Keeps y s Q) : D.Keeps x s Q := by
  unfold Keeps
  rwa [hxy]

theorem pure {a : α} (hs : D.Holds s) (ha : Q s a) : D.Keeps (Pure.pure a) s Q := by
  refine ⟨⟨hs, D.refl s⟩, fun b t h => ?_⟩
  cases h
  exact ha

theorem throw {e : Error} (hs : D.Holds s) : D.Keeps (MonadExcept.throw e : Action α) s Q :=
  ⟨⟨hs, D.refl s⟩, fun _ _ h => nomatch h⟩

theorem bind {x : Action α} {f : α → Action β} (hx : D.Keeps x s Q)
    (hf : ∀ a t, D.Holds t → D.Leads s t → Q t a → D.Keeps (f a) t R) :
    D.Keeps (x >>= f) s R := by
  have hbind : (x >>= f) s = EStateM.bind x f s := rfl
  unfold EStateM.bind at hbind
  cases hxs : x s with
  | ok a t =>
    obtain ⟨⟨ht, hst⟩, ha⟩ := hx.of_ok hxs
    have hfa := hf a t ht hst ha
    rw [hxs] at hbind
    refine ⟨?_, fun b u hb => hfa.2 b u (hbind.symm.trans hb)⟩
    rw [hbind]
    exact ⟨hfa.1.1, D.trans hst hfa.1.2⟩
  | error e t =>
    rw [hxs] at hbind
    refine ⟨?_, fun b u hb => nomatch hbind.symm.trans hb⟩
    rw [hbind]
    exact hx.of_error hxs

theorem inspect {look : Store → α} (hs : D.Holds s) (h : Q s (look s)) :
    D.Keeps (Action.inspect look) s Q := pure hs h

theorem get_bind {f : Store → Action β} (h : D.Keeps (f s) s R) :
    D.Keeps ((MonadState.get : Action Store) >>= f) s R := h

theorem inspect_bind {look : Store → α} {f : α → Action β} (h : D.Keeps (f (look s)) s R) :
    D.Keeps (Action.inspect look >>= f) s R := h

theorem change {f : Store → Store} {Q : Store → Unit → Prop} (h : D.Holds (f s) ∧ D.Leads s (f s))
    (hQ : Q (f s) ()) : D.Keeps (Action.change f) s Q := by
  refine ⟨h, fun a t ht => ?_⟩
  cases ht
  exact hQ

theorem lift {b : Build α} (h : D.Holds (b s).2 ∧ D.Leads s (b s).2) (hQ : Q (b s).2 (b s).1) :
    D.Keeps (liftM b) s Q := by
  refine ⟨h, fun a t ht => ?_⟩
  cases ht
  exact hQ

theorem except {x : Except Error α} (hs : D.Holds s) (h : ∀ a, x = .ok a → Q s a) :
    D.Keeps (liftM x) s Q := by
  cases x with
  | ok a => exact pure hs (h a rfl)
  | error e => exact throw hs

theorem ended {a : Option α} (hs : D.Holds s) (h : ∀ b, a = some b → Q s b) :
    D.Keeps (Action.ended a) s Q := by
  cases a with
  | some a => exact pure hs (h a rfl)
  | none => exact throw hs

theorem mapM {f : α → Action β} {as : List α} (hs : D.Holds s)
    (hR : ∀ {s t b}, D.Leads s t → R s b → R t b)
    (hf : ∀ a ∈ as, ∀ t, D.Holds t → D.Leads s t → D.Keeps (f a) t R) :
    D.Keeps (as.mapM f) s fun t bs => ∀ b ∈ bs, R t b := by
  induction as generalizing s with
  | nil => exact pure hs (by simp)
  | cons a as ih =>
    obtain ⟨ha, hmore⟩ := List.forall_mem_cons.mp hf
    rw [List.mapM_cons]
    refine (ha s hs (D.refl s)).bind fun b t ht hst hb => ?_
    refine (ih ht fun a ha u hu htu => hmore a ha u hu (D.trans hst htu)).bind ?_
    exact fun bs u hu htu hbs => pure hu (List.forall_mem_cons.mpr ⟨hR htu hb, hbs⟩)

theorem foldlM {f : β → α → Action β} {as : List α} {b : β} (hs : D.Holds s) (hb : R s b)
    (hf : ∀ a ∈ as, ∀ t b, D.Holds t → D.Leads s t → R t b → D.Keeps (f b a) t R) :
    D.Keeps (as.foldlM f b) s R := by
  induction as generalizing s b with
  | nil => exact pure hs hb
  | cons a as ih =>
    obtain ⟨ha, hmore⟩ := List.forall_mem_cons.mp hf
    rw [List.foldlM_cons]
    refine (ha s b hs (D.refl s) hb).bind fun c t ht hst hc => ih ht hc ?_
    exact fun a ha u d hu htu hd => hmore a ha u d hu (D.trans hst htu) hd

end Keeps

section Building

variable (hs : D.Holds s)

include hs

theorem keeps_cons {car cdr : Value} (hcar : D.Data s car) (hcdr : D.Data s cdr) :
    D.Keeps (liftM (Build.cons car cdr)) s D.Data :=
  .lift (D.cons hs hcar hcdr).1 (D.cons hs hcar hcdr).2

theorem keeps_vector {items : Array Value} (hitems : ∀ v ∈ items.toList, D.Data s v) :
    D.Keeps (liftM (Build.vector items)) s D.Data :=
  .lift (D.vector hs hitems).1 (D.vector hs hitems).2

theorem holds_listWithTail (hitems : ∀ v ∈ items, D.Data s v) (htail : D.Data s tail) :
    (D.Holds (Build.listWithTail items tail s).2 ∧ D.Leads s (Build.listWithTail items tail s).2) ∧
      D.Data (Build.listWithTail items tail s).2 (Build.listWithTail items tail s).1 := by
  suffices h : ∀ (reversed : List Value) (v : Value) (s : Store), D.Holds s →
      (∀ v ∈ reversed, D.Data s v) → D.Data s v →
      (D.Holds (Build.consReversed reversed v s).2 ∧
        D.Leads s (Build.consReversed reversed v s).2) ∧
        D.Data (Build.consReversed reversed v s).2 (Build.consReversed reversed v s).1 from
    h items.reverse tail s hs (by simpa using hitems) htail
  intro reversed
  induction reversed with
  | nil => exact fun v s hs _ hv => ⟨⟨hs, D.refl s⟩, hv⟩
  | cons item more ih =>
    intro v s hs hitems hv
    obtain ⟨hitem, hmore⟩ := List.forall_mem_cons.mp hitems
    obtain ⟨⟨ht, hst⟩, hpair⟩ := D.cons hs hitem hv
    obtain ⟨⟨hu, htu⟩, hlist⟩ := ih _ _ ht (D.all_leads hst hmore) hpair
    exact ⟨⟨hu, D.trans hst htu⟩, hlist⟩

theorem keeps_listWithTail (hitems : ∀ v ∈ items, D.Data s v) (htail : D.Data s tail) :
    D.Keeps (liftM (Build.listWithTail items tail)) s D.Data :=
  .lift (holds_listWithTail hs hitems htail).1 (holds_listWithTail hs hitems htail).2

theorem keeps_list (hitems : ∀ v ∈ items, D.Data s v) :
    D.Keeps (liftM (Build.list items)) s D.Data := keeps_listWithTail hs hitems D.null

end Building

end Discipline

end HygienicScheme
