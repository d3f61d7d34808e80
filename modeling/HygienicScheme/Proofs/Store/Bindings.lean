import HygienicScheme.Proofs.Evaluation.Calm
import HygienicScheme.Proofs.Expansion.Effects

/-!
# The bindings of frames

A symbol is bound in a frame or it is not, and to give it a value there changes no other binding.
What expands forms, places data or makes frames changes the bindings of no frame that exists.
-/
namespace HygienicScheme

section Entries

variable {α β : Type} [DecidableEq α] {key x : α} {value : β} {entries : List (α × β)}

theorem lookup_entry (entry : α × β) :
    (entry :: entries).lookup x = if x = entry.1 then some entry.2 else entries.lookup x := by
  rw [List.lookup_cons]
  by_cases hx : x = entry.1
  · rw [if_pos hx, beq_iff_eq.mpr hx]
  · rw [if_neg hx, beq_eq_false_iff_ne.mpr hx]

theorem lookup_insertEntry : (insertEntry key value entries).lookup x =
    if x = key then some value else entries.lookup x := by
  induction entries with
  | nil => exact lookup_entry (key, value)
  | cons entry more ih =>
    unfold insertEntry
    by_cases hkey : entry.1 = key
    · rw [if_pos (beq_iff_eq.mpr hkey), lookup_entry, lookup_entry, hkey]
      split <;> rfl
    · rw [if_neg (mt beq_iff_eq.mp hkey), lookup_entry, lookup_entry, ih]
      by_cases hx : x = entry.1
      · rw [if_pos hx, if_neg (hx ▸ hkey), if_pos hx]
      · rw [if_neg hx, if_neg hx]

theorem any_eq_isSome_lookup : (entries.any fun e => e.1 == x) = (entries.lookup x).isSome := by
  induction entries with
  | nil => rfl
  | cons entry more ih =>
    rw [List.any_cons, List.lookup_cons, ih, BEq.comm]
    cases x == entry.1 <;> rfl

end Entries

namespace Store

variable {s t : Store} {f g : Address} {x y : Symbol} {v w : Value}

def bound? (s : Store) (f : Address) (x : Symbol) : Option Value := (s.frameAt f).bindings.lookup x

theorem binds_eq (env : Environment) : s.binds env x = (s.bound? env.frame x).isSome :=
  any_eq_isSome_lookup

theorem lt_of_bound (h : s.bound? f x = some v) : f < s.frames.size := by
  by_contra hf
  rw [bound?, frameAt, Array.getD_eq_getD_getElem?,
    Array.getElem?_eq_none (Nat.le_of_not_lt hf)] at h
  cases h

theorem bound?_eq_none (hf : s.frames.size ≤ f) : s.bound? f x = none :=
  Option.eq_none_iff_forall_ne_some.mpr fun _ h => Nat.not_lt.mpr hf (lt_of_bound h)

theorem bound?_bind : (s.bind f x v).bound? g y =
    if f < s.frames.size ∧ g = f ∧ y = x then some v else s.bound? g y := by
  unfold bound? bind
  rw [frameAt_modifyFrame]
  by_cases hg : f = g ∧ g < s.frames.size
  · obtain ⟨rfl, hf⟩ := hg
    rw [if_pos ⟨rfl, hf⟩, lookup_insertEntry]
    simp [hf]
  · have hslot : ¬(f < s.frames.size ∧ g = f ∧ y = x) := by
      rintro ⟨hf, rfl, -⟩
      exact hg ⟨rfl, hf⟩
    rw [if_neg hg, if_neg hslot]

def KeepsBindings (s t : Store) : Prop := ∀ f < s.frames.size, ∀ x, t.bound? f x = s.bound? f x

theorem Quiet.bound?_eq (h : s.Quiet t) (f : Address) (x : Symbol) : t.bound? f x = s.bound? f x :=
  congrArg (fun frame : Frame => frame.bindings.lookup x) (h.frameAt_eq f)

theorem Quiet.keepsBindings (h : s.Quiet t) : s.KeepsBindings t := fun f _ x => h.bound?_eq f x

theorem Expands.keepsBindings (h : s.Expands t) : s.KeepsBindings t := fun f _ x => by
  rw [bound?, h.bindings_eq f, bound?]

theorem keepsBindings_push (frame : Frame) :
    s.KeepsBindings { s with frames := s.frames.push frame } := by
  intro f hf x
  have hframe : ({ s with frames := s.frames.push frame } : Store).frameAt f = s.frameAt f := by
    simp [frameAt, Array.getD_eq_getD_getElem?, Array.getElem?_push, hf, Nat.ne_of_lt hf]
  rw [bound?, hframe, bound?]

end Store

mutual

theorem Datum.quiet_place : ∀ (d : Datum) (s : Store), s.Quiet (d.place s).2
  | .null, s | .bool _, s | .int _, s | .float _, s | .char _, s | .symbol _, s => .refl s
  | .string _, _ => ⟨rfl, rfl, rfl⟩
  | .pair car cdr, s => by
    have hcells := (car.quiet_place s).trans (cdr.quiet_place _)
    exact hcells.trans ⟨rfl, rfl, rfl⟩
  | .vector items, s => (Datum.quiet_placeAll items s).trans ⟨rfl, rfl, rfl⟩

theorem Datum.quiet_placeAll : ∀ (items : List Datum) (s : Store),
    s.Quiet (Datum.placeAll items s).2
  | [], s => .refl s
  | d :: more, s => (d.quiet_place s).trans (Datum.quiet_placeAll more _)

end

end HygienicScheme
