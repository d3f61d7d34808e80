import HygienicScheme.Proofs.Discipline.Evaluation
import HygienicScheme.Proofs.Discipline.Expansion

/-!
# Everywhere in a store

What holds of every value that stands anywhere in a store, reached or not, still does after a cell,
a binding, a closure or a transformer is added or changed, if it holds of the new values.
-/
namespace HygienicScheme

section Arrays

variable {α : Type} {xs : Array α} {d x : α} {f : α → α} {i : Nat} {P : α → Prop}

theorem forall_getD_push (h : ∀ a, P (xs.getD a d)) (hx : P x) : ∀ a, P ((xs.push x).getD a d) := by
  intro a
  have ha := h a
  rw [Array.getD_eq_getD_getElem?] at ha ⊢
  rw [Array.getElem?_push]
  split
  · exact hx
  · exact ha

theorem forall_getD_modify (h : ∀ a, P (xs.getD a d)) (hf : P (f (xs.getD i d))) :
    ∀ a, P ((xs.modify i f).getD a d) := by
  intro a
  rw [getD_modify]
  split
  · rename_i ha
    rw [← ha.1]
    exact hf
  · exact h a

theorem forall_getD_setIfInBounds (h : ∀ a, P (xs.getD a d)) (hx : P x) :
    ∀ a, P ((xs.setIfInBounds i x).getD a d) := by
  intro a
  have ha := h a
  rw [Array.getD_eq_getD_getElem?] at ha ⊢
  rw [Array.getElem?_setIfInBounds]
  split
  · rename_i heq
    subst heq
    split
    · exact hx
    · rename_i hi
      rwa [Array.getElem?_eq_none (Nat.not_lt.mp hi)] at ha
  · exact ha

end Arrays

theorem mem_insertEntry {α β : Type} [BEq α] {key : α} {value : β} {entries : List (α × β)}
    {e : α × β} (h : e ∈ insertEntry key value entries) : e = (key, value) ∨ e ∈ entries := by
  induction entries with
  | nil => exact .inl (List.mem_singleton.mp h)
  | cons first more ih =>
    unfold insertEntry at h
    split at h
    · exact (List.mem_cons.mp h).imp_right (List.mem_cons_of_mem _)
    · rcases List.mem_cons.mp h with rfl | h
      · exact .inr List.mem_cons_self
      · exact (ih h).imp_right (List.mem_cons_of_mem _)

namespace Store

structure Roots (code data constant : Value → Prop) (s : Store) : Prop where
  body : ∀ a, ∀ v ∈ (s.closureAt a).body, code v
  promise : ∀ a, data (s.promiseAt a).content
  binding : ∀ f, ∀ b ∈ (s.frameAt f).bindings, data b.2
  constant : ∀ f, ∀ m ∈ (s.frameAt f).transformers, ∀ v ∈ m.2.constants, constant v

namespace Roots

variable {code data constant code' data' constant' : Value → Prop} {s : Store} {v : Value}

theorem mono (h : s.Roots code data constant) (hcode : ∀ v, code v → code' v)
    (hdata : ∀ v, data v → data' v) (hconstant : ∀ v, constant v → constant' v) :
    s.Roots code' data' constant' where
  body a v hv := hcode v (h.body a v hv)
  promise a := hdata _ (h.promise a)
  binding f b hb := hdata _ (h.binding f b hb)
  constant f m hm v hv := hconstant v (h.constant f m hm v hv)

theorem empty (h : data .null) : empty.Roots code data constant where
  body _ _ hv := nomatch hv
  promise _ := h
  binding _ _ hb := nomatch hb
  constant _ _ hm := nomatch hm

theorem push_closure {c : Closure} (h : s.Roots code data constant) (hbody : ∀ v ∈ c.body, code v) :
    { s with closures := s.closures.push c }.Roots code data constant :=
  { h with body := forall_getD_push (P := fun c : Closure => ∀ v ∈ c.body, code v) h.body hbody }

theorem push_promise {p : Promise} (h : s.Roots code data constant) (hp : data p.content) :
    { s with promises := s.promises.push p }.Roots code data constant :=
  { h with promise := forall_getD_push (P := fun p : Promise => data p.content) h.promise hp }

theorem push_frame {bindings : List (Symbol × Value)} (h : s.Roots code data constant)
    (hbindings : ∀ b ∈ bindings, data b.2) :
    { s with frames := s.frames.push ⟨bindings, []⟩ }.Roots code data constant :=
  { h with
    binding := forall_getD_push (P := fun f : Frame => ∀ b ∈ f.bindings, data b.2) h.binding
      hbindings
    constant := forall_getD_push
      (P := fun f : Frame => ∀ m ∈ f.transformers, ∀ v ∈ m.2.constants, constant v)
      h.constant (by simp) }

theorem set_promise {a : Address} {p : Promise} (h : s.Roots code data constant)
    (hp : data p.content) :
    { s with promises := s.promises.setIfInBounds a p }.Roots code data constant :=
  { h with
    promise := forall_getD_setIfInBounds (P := fun p : Promise => data p.content) h.promise hp }

theorem modifyFrame {f : Address} {change : Frame → Frame} (h : s.Roots code data constant)
    (hbindings : ∀ b ∈ (change (s.frameAt f)).bindings, data b.2)
    (htransformers : ∀ m ∈ (change (s.frameAt f)).transformers, ∀ v ∈ m.2.constants, constant v) :
    (s.modifyFrame f change).Roots code data constant :=
  { h with
    binding := forall_getD_modify (P := fun f : Frame => ∀ b ∈ f.bindings, data b.2) h.binding
      hbindings
    constant := forall_getD_modify
      (P := fun f : Frame => ∀ m ∈ f.transformers, ∀ v ∈ m.2.constants, constant v)
      h.constant htransformers }

theorem bind (h : s.Roots code data constant) (f : Address) (x : Symbol) (hv : data v) :
    (s.bind f x v).Roots code data constant := by
  refine h.modifyFrame (fun b hb => ?_) (h.constant f)
  rcases mem_insertEntry hb with rfl | hb
  · exact hv
  · exact h.binding f b hb

theorem install {m : Transformer} (h : s.Roots code data constant) (env : Environment)
    (hm : ∀ v ∈ m.constants, constant v) : (s.install env m).Roots code data constant := by
  refine h.modifyFrame (h.binding _) fun p hp => ?_
  rcases List.mem_cons.mp hp with rfl | hp
  · exact hm
  · exact h.constant _ p hp

end Roots

/-- It holds of every value in the store. -/
structure All (P : Value → Prop) (s : Store) : Prop extends s.Roots P P P where
  car : ∀ a, P (s.pairAt a).car
  cdr : ∀ a, P (s.pairAt a).cdr
  item : ∀ a, ∀ v ∈ (s.vectorAt a).toList, P v

namespace All

variable {P Q : Value → Prop} {s : Store} {v w : Value}

theorem mono (h : s.All P) (hPQ : ∀ v, P v → Q v) : s.All Q where
  toRoots := h.toRoots.mono hPQ hPQ hPQ
  car a := hPQ _ (h.car a)
  cdr a := hPQ _ (h.cdr a)
  item a v hv := hPQ v (h.item a v hv)

theorem empty (h : P .null) : empty.All P where
  toRoots := .empty h
  car _ := h
  cdr _ := h
  item _ _ hv := nomatch hv

theorem slot (h : s.All P) (hw : s.Slot v w) : P w := by
  cases hw with
  | car => exact h.car _
  | cdr => exact h.cdr _
  | item hv => exact h.item _ w hv

theorem push_pair {p : Pair} (h : s.All P) (hcar : P p.car) (hcdr : P p.cdr) :
    { s with pairs := s.pairs.push p }.All P :=
  { h with
    car := forall_getD_push (P := fun p : Pair => P p.car) h.car hcar
    cdr := forall_getD_push (P := fun p : Pair => P p.cdr) h.cdr hcdr }

theorem push_vector {items : Array Value} (h : s.All P) (hitems : ∀ v ∈ items.toList, P v) :
    { s with vectors := s.vectors.push items }.All P :=
  { h with
    item := forall_getD_push (P := fun items : Array Value => ∀ v ∈ items.toList, P v) h.item
      hitems }

theorem push_closure {c : Closure} (h : s.All P) (hbody : ∀ v ∈ c.body, P v) :
    { s with closures := s.closures.push c }.All P :=
  { h with toRoots := h.toRoots.push_closure hbody }

theorem push_promise {p : Promise} (h : s.All P) (hp : P p.content) :
    { s with promises := s.promises.push p }.All P :=
  { h with toRoots := h.toRoots.push_promise hp }

theorem push_frame {bindings : List (Symbol × Value)} (h : s.All P)
    (hbindings : ∀ b ∈ bindings, P b.2) :
    { s with frames := s.frames.push ⟨bindings, []⟩ }.All P :=
  { h with toRoots := h.toRoots.push_frame hbindings }

theorem modify_pair {a : Address} {change : Pair → Pair} (h : s.All P)
    (hcar : P (change (s.pairAt a)).car) (hcdr : P (change (s.pairAt a)).cdr) :
    { s with pairs := s.pairs.modify a change }.All P :=
  { h with
    car := forall_getD_modify (P := fun p : Pair => P p.car) h.car hcar
    cdr := forall_getD_modify (P := fun p : Pair => P p.cdr) h.cdr hcdr }

theorem modify_vector {a : Address} {change : Array Value → Array Value} (h : s.All P)
    (hitems : ∀ v ∈ (change (s.vectorAt a)).toList, P v) :
    { s with vectors := s.vectors.modify a change }.All P :=
  { h with
    item := forall_getD_modify (P := fun items : Array Value => ∀ v ∈ items.toList, P v) h.item
      hitems }

theorem set_promise {a : Address} {p : Promise} (h : s.All P) (hp : P p.content) :
    { s with promises := s.promises.setIfInBounds a p }.All P :=
  { h with toRoots := h.toRoots.set_promise hp }

theorem bind (h : s.All P) (f : Address) (x : Symbol) (hv : P v) : (s.bind f x v).All P :=
  { h with toRoots := h.toRoots.bind f x hv }

theorem install {m : Transformer} (h : s.All P) (env : Environment)
    (hm : ∀ v ∈ m.constants, P v) : (s.install env m).All P :=
  { h with toRoots := h.toRoots.install env hm }

end All

end Store

/-- It holds of every value in the state. -/
structure Machine.All (P : Value → Prop) (m : Machine) : Prop where
  store : m.store.All P
  task : m.task.All (fun _ => P) P
  stack : ∀ waiting ∈ m.stack, waiting.All (fun _ => P) P

theorem Machine.All.mono {P Q : Value → Prop} {m : Machine} (h : m.All P) (hPQ : ∀ v, P v → Q v) :
    m.All Q where
  store := h.store.mono hPQ
  task := h.task.mono (fun _ => hPQ) hPQ
  stack waiting hw := (h.stack waiting hw).mono (fun _ => hPQ) hPQ

end HygienicScheme
