import HygienicScheme.Action

/-!
# Calls that may panic

A primitive runs in a program that stops at once when an argument or an item is asked for that is
not there, when an integer operation has no result, when memory is exhausted, or when a cell is
borrowed that is held for writing. A guarded action has all these checks. It knows the cells that
the call holds: a cell may be borrowed for reading while it is not held for writing, and for writing
while it is not held at all.
-/
namespace HygienicScheme

inductive Panic
  | index
  | slice
  | arithmetic
  | memory
  | borrow
deriving DecidableEq, Inhabited, Repr

inductive Cell
  | pair (a : Address)
  | vector (a : Address)
deriving DecidableEq, Inhabited, Repr

structure Held where
  reading : List Cell
  writing : List Cell
deriving Inhabited, Repr

namespace Held

def none : Held := ⟨[], []⟩

def read (h : Held) (c : Cell) : Held := { h with reading := c :: h.reading }

def write (h : Held) (c : Cell) : Held := { h with writing := c :: h.writing }

def mayShow (h : Held) (p : Store.Printout) : Bool :=
  h.writing.all fun
    | .pair _ => false
    | .vector a => !p.vectors.contains a

end Held

def Guarded (α : Type) : Type := Held → Store → Except Panic (EStateM.Result Error Store α)

namespace Guarded

variable {α β : Type}

instance : Monad Guarded where
  pure a := fun _ s => .ok (.ok a s)
  bind x f := fun h s =>
    match x h s with
    | .ok (.ok a t) => f a h t
    | .ok (.error e t) => .ok (.error e t)
    | .error p => .error p

theorem bind_apply (x : Guarded α) (f : α → Guarded β) (h : Held) (s : Store) :
    (x >>= f) h s =
      match x h s with
      | .ok (.ok a t) => f a h t
      | .ok (.error e t) => .ok (.error e t)
      | .error p => .error p := rfl

instance : LawfulMonad Guarded := .mk' _
  (fun x => by
    funext h s
    change (x >>= pure) h s = x h s
    rw [bind_apply]
    cases x h s with
    | error p => rfl
    | ok r => cases r <;> rfl)
  (fun _ _ => rfl)
  (fun x f g => by
    funext h s
    simp only [bind_apply]
    cases x h s with
    | error p => rfl
    | ok r => cases r <;> rfl)

def panic (p : Panic) : Guarded α := fun _ _ => .error p

def throw (e : Error) : Guarded α := fun _ s => .ok (.error e s)

instance : MonadLift Build Guarded where
  monadLift build := fun _ s => .ok ((liftM build : Action _) s)

instance : MonadLift (Except Error) Guarded where
  monadLift result := fun _ s => .ok ((liftM result : Action _) s)

def item (items : List α) (i : Nat) : Guarded α :=
  match items[i]? with
  | some a => pure a
  | none => panic .index

def itemsFrom (items : List α) (i : Nat) : Guarded (List α) :=
  if i ≤ items.length then pure (items.drop i) else panic .slice

def itemsBetween (items : List α) (start stop : Nat) : Guarded (List α) :=
  if start ≤ stop ∧ stop ≤ items.length then pure ((items.take stop).drop start) else panic .slice

def look (f : Store → α) : Guarded α := fun _ s => .ok (.ok (f s) s)

def survey (f : Store → α) : Guarded α := fun h s =>
  if h.writing.isEmpty then .ok (.ok (f s) s) else .error .borrow

def written (v : Value) : Guarded String := fun h s =>
  let shown := s.print .write v
  if h.mayShow shown then .ok (.ok shown.text s) else .error .borrow

def check (test : Value → Action α) (v : Value) : Guarded α := fun h s =>
  match test v s with
  | .ok a t => .ok (.ok a t)
  | .error e t => if h.mayShow (s.print .write v) then .ok (.error e t) else .error .borrow

def reading (c : Cell) (x : Guarded α) : Guarded α := fun h s =>
  if h.writing.contains c then .error .borrow else x (h.read c) s

def writing (c : Cell) (x : Guarded α) : Guarded α := fun h s =>
  if h.reading.contains c || h.writing.contains c then .error .borrow else x (h.write c) s

def change (f : Store → Store) : Guarded Unit := fun _ s => .ok (.ok () (f s))

def sum (a b : Int64) : Guarded Int64 :=
  if Int64.minValue.toInt ≤ a.toInt + b.toInt ∧ a.toInt + b.toInt ≤ Int64.maxValue.toInt then
    pure (a + b)
  else panic .arithmetic

def remainder (a b : Int64) : Guarded Int64 :=
  if b = 0 ∨ a = Int64.minValue ∧ b = -1 then panic .arithmetic else pure (a % b)

def Agrees (x : Guarded α) (y : Action α) : Prop :=
  ∀ h s, h.writing = [] → x h s = .ok (y s)

namespace Agrees

variable {x : Guarded α} {y : Action α}

theorem pure (a : α) : Agrees (Pure.pure a) (Pure.pure a) := fun _ _ _ => rfl

theorem throw (e : Error) : Agrees (Guarded.throw e : Guarded α) (MonadExcept.throw e) :=
  fun _ _ _ => rfl

theorem lift (b : Build α) : Agrees (liftM b) (liftM b) := fun _ _ _ => rfl

theorem except (result : Except Error α) : Agrees (liftM result) (liftM result) := fun _ _ _ => rfl

theorem bind {f : α → Guarded β} {g : α → Action β} (hx : Agrees x y)
    (hf : ∀ a, Agrees (f a) (g a)) : Agrees (x >>= f) (y >>= g) := by
  intro h s hw
  rw [bind_apply, hx h s hw]
  change _ = Except.ok (EStateM.bind y g s)
  unfold EStateM.bind
  cases y s with
  | ok a t => exact hf a h t hw
  | error e t => rfl

theorem look (f : Store → α) : Agrees (Guarded.look f) (Action.inspect f) := fun _ _ _ => rfl

theorem survey (f : Store → α) : Agrees (Guarded.survey f) (Action.inspect f) := by
  intro h s hw
  simp [Guarded.survey, hw]
  rfl

theorem written (v : Value) : Agrees (Guarded.written v) (Action.writeText v) := by
  intro h s hw
  simp [Guarded.written, Held.mayShow, hw]
  rfl

theorem check (test : Value → Action α) (v : Value) : Agrees (Guarded.check test v) (test v) := by
  intro h s hw
  unfold Guarded.check
  cases test v s with
  | ok a t => rfl
  | error e t => simp [Held.mayShow, hw]

theorem reading (c : Cell) (hx : Agrees x y) : Agrees (Guarded.reading c x) y := by
  intro h s hw
  simpa [Guarded.reading, hw] using hx (h.read c) s hw

theorem mapM {f : α → Guarded β} {g : α → Action β} (hf : ∀ a, Agrees (f a) (g a)) (as : List α) :
    Agrees (as.mapM f) (as.mapM g) := by
  induction as with
  | nil => exact .pure []
  | cons a as ih =>
    rw [List.mapM_cons, List.mapM_cons]
    exact (hf a).bind fun b => ih.bind fun bs => .pure (b :: bs)

theorem foldlM {f : β → α → Guarded β} {g : β → α → Action β} (hf : ∀ b a, Agrees (f b a) (g b a))
    (b : β) (as : List α) : Agrees (as.foldlM f b) (as.foldlM g b) := by
  induction as generalizing b with
  | nil => exact .pure b
  | cons a as ih =>
    rw [List.foldlM_cons, List.foldlM_cons]
    exact (hf b a).bind fun c => ih c

end Agrees

end Guarded

end HygienicScheme
