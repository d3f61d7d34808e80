import HygienicScheme.Proofs.Evaluation.Turns
import Mathlib.Logic.Function.Iterate

/-!
# The depth and the stack

Every step changes the depth by as many nested evaluations as it puts on the stack or takes off it.
So the depth is known from the stack alone, and when everything that an evaluation has put on the
stack is gone the depth is what it was when the evaluation began, whatever it came to.

Without a limit a machine does inside another evaluation what it does alone, at a depth that is
greater by a constant. A limit that such a run stays below is never reported, so the machine with
the limit does the same.
-/
namespace HygienicScheme.Machine

variable {c : Context} {m m' m'' : Machine} {k : Stack} {d h base : Nat} {e : Error}

inductive Handed (k : Stack) : Task → Prop
  | value (v : Value) : Handed k (.value v)
  | escape (id : Nat) (v : Value) : Handed k (.escape id v)
  | error (e : Error) : Handed k (.error e)
  | form (form : Value) (env : Environment) (hk : k.head? = some .call) : Handed k (.tail form env)

theorem handed_of_ended {outcome : Outcome} (h : m.outcome? = some outcome) :
    m.stack = [] ∧ Handed k m.task := by
  unfold outcome? at h
  split at h
  case h_1 htask hstack => exact ⟨hstack, htask ▸ .value _⟩
  case h_2 htask hstack => exact ⟨hstack, htask ▸ .error _⟩
  case h_3 htask hstack => exact ⟨hstack, htask ▸ .escape _ _⟩
  case h_4 => cases h

theorem step_of_ended {outcome : Outcome} (h : m.outcome? = some outcome) : step c m = m := by
  obtain ⟨task, stack, depth, s⟩ := m
  obtain ⟨rfl, htask⟩ := handed_of_ended (k := []) h
  cases htask with
  | form form env hk => cases hk
  | _ => rfl

theorem step_here {next : Nat → Stack → Nat → Machine}
    (h : ∀ limit k d, m.Fits k → step (c.limited limit) (m.atop k d) = next limit k d) :
    step c m = next c.maxDepth [] 0 := by
  have hstep := h c.maxDepth [] 0 (fits_nil m)
  rwa [atop_nil] at hstep

def Balanced (base : Nat) (m : Machine) : Prop := m.depth = base + nestings m.stack

theorem Balanced.step (h : m.Balanced base) : (m.step c).Balanced base := by
  cases turn c m with
  | goes popped new hstack hnew htask hstep =>
    rw [step_here hstep]
    simp only [Balanced, hstack, nestings_append, List.append_nil] at h ⊢
    omega
  | nests popped hstack hpopped hstep =>
    rw [step_here hstep]
    simp only [Balanced, hstack, nestings_append] at h
    split
    · simp only [Balanced, List.append_nil]
      omega
    · simp only [Balanced, nestings_nested, List.append_nil]
      omega
  | ended hended => rwa [step_of_ended hended]

theorem depth_step_le : (m.step c).depth ≤ max m.depth c.maxDepth := by
  cases turn c m with
  | goes popped new hstack hnew htask hstep =>
    rw [step_here hstep]
    dsimp only
    omega
  | nests popped hstack hpopped hstep =>
    rw [step_here hstep]
    split
    · dsimp only
      omega
    · dsimp only
      omega
  | ended hended =>
    rw [step_of_ended hended]
    exact Nat.le_max_left _ _

theorem depth_iterate_le (n : Nat) : ((step c)^[n] m).depth ≤ max m.depth c.maxDepth := by
  induction n generalizing m with
  | zero => exact Nat.le_max_left _ _
  | succ n ih =>
    have hstep : (m.step c).depth ≤ max m.depth c.maxDepth := depth_step_le
    have hrest : ((step c)^[n] (m.step c)).depth ≤ max (m.step c).depth c.maxDepth := ih
    rw [Function.iterate_succ_apply]
    omega

/-- An error that was not there before is an ordinary one, or it reports the limit where the limit
is reached. -/
theorem error_of_step (h : (m.step c).task = .error e) :
    m.task = .error e ∨ e.Ordinary ∨ (e = .limit c.maxDepth ∧ c.maxDepth ≤ m.depth) := by
  cases turn c m with
  | goes popped new hstack hnew htask hstep =>
    rw [step_here hstep] at h
    rcases htask e h with he | he
    · exact .inr (.inl he)
    · exact .inl he
  | nests popped hstack hpopped hstep =>
    rw [step_here hstep] at h
    split at h
    case isTrue hlimit =>
      cases h
      exact .inr (.inr ⟨rfl, hlimit⟩)
    case isFalse => cases h
  | ended hended => exact .inl (by rwa [step_of_ended hended] at h)

def Inside (k : Stack) (d : Nat) (m : Machine) : Prop :=
  ∃ above, m.stack = above ++ k ∧ m.depth = d + nestings above

def Returned (k : Stack) (d : Nat) (m : Machine) : Prop :=
  m.stack = k ∧ m.depth = d ∧ Handed k m.task

theorem Inside.exists_atop (h : m.Inside k d) :
    ∃ m', m'.Balanced 0 ∧ m = Machine.atop m' k d := by
  obtain ⟨task, stack, depth, s⟩ := m
  obtain ⟨above, hstack, hdepth⟩ := h
  dsimp only at hstack hdepth
  subst hstack hdepth
  refine ⟨⟨task, above, nestings above, s⟩, (Nat.zero_add _).symm, ?_⟩
  rw [Machine.atop, Nat.add_comm]

/-- Where the machine does not look beyond what it has put on the stack, a step does the same as
with nothing below. -/
theorem Inside.step_atop (h : m.Balanced 0) (hfits : m.Fits k)
    (hended : m.outcome? = none) : ((m.atop k d).step c).Inside k d := by
  rw [Balanced, Nat.zero_add] at h
  cases turn c m with
  | goes popped new hstack hnew htask hstep =>
    have hstep := hstep c.maxDepth k d hfits
    rw [c.limited_self] at hstep
    rw [hstep]
    rw [hstack, nestings_append] at h
    refine ⟨new ++ _, (List.append_assoc _ _ _).symm, ?_⟩
    rw [nestings_append]
    dsimp only
    omega
  | nests popped hstack hpopped hstep =>
    have hstep := hstep c.maxDepth k d hfits
    rw [c.limited_self] at hstep
    rw [hstep]
    rw [hstack, nestings_append] at h
    split
    · refine ⟨_, rfl, ?_⟩
      dsimp only
      omega
    · refine ⟨.nested :: _, rfl, ?_⟩
      rw [nestings_nested]
      dsimp only
      omega
  | ended h => rw [h] at hended; cases hended

theorem returned_of_alone (h : m.Balanced 0) (hstack : m.stack = []) (htask : Handed k m.task) :
    (m.atop k d).Returned k d := by
  refine ⟨?_, ?_, htask⟩
  · rw [atop, hstack, List.nil_append]
  · rw [atop, h, hstack, nestings_nil, Nat.zero_add]

theorem Inside.step (h : m.Inside k d) : (m.step c).Inside k d ∨ m.Returned k d := by
  obtain ⟨m, hm, rfl⟩ := h.exists_atop
  by_cases hfits : m.Fits k
  · cases hended : m.outcome? with
    | none => exact .inl (.step_atop hm hfits hended)
    | some outcome =>
      obtain ⟨hstack, hhanded⟩ := handed_of_ended (k := k) hended
      exact .inr (returned_of_alone hm hstack hhanded)
  · -- A form in tail position has met the end of the application that left it.
    simp only [Fits, not_forall, not_not] at hfits
    obtain ⟨form, env, htask, hstack, hk⟩ := hfits
    have hhanded : Handed k m.task := htask ▸ .form form env hk
    exact .inr (returned_of_alone hm hstack hhanded)

theorem Inside.iterate (h : m.Inside k d) (n : Nat) :
    ((Machine.step c)^[n] m).Inside k d ∨
      ∃ j < n, ((Machine.step c)^[j] m).Returned k d := by
  induction n generalizing m with
  | zero => exact .inl h
  | succ n ih =>
    rcases h.step (c := c) with hstep | hreturned
    · rcases ih hstep with hinside | ⟨j, hj, hreturned⟩
      · exact .inl hinside
      · exact .inr ⟨j + 1, Nat.succ_lt_succ hj, hreturned⟩
    · exact .inr ⟨0, Nat.succ_pos n, hreturned⟩

/-! ### Evaluations inside others -/

def free (c : Context) (m : Machine) : Machine := step (c.limited (m.depth + 1)) m

section Turns

variable {next : Nat → Stack → Nat → Machine}
  (hstep : ∀ limit k d, m.Fits k → step (c.limited limit) (m.atop k d) = next limit k d)

include hstep

theorem free_here : free c m = next (m.depth + 1) [] 0 := by
  have h := hstep (m.depth + 1) [] 0 m.fits_nil
  rwa [atop_nil] at h

theorem free_inside (hfits : m.Fits k) : free c (m.atop k d) = next (m.depth + d + 1) k d :=
  hstep _ k d hfits

end Turns

theorem free_atop (hm : m.Balanced 0) (hfits : m.Fits k) (hended : m.outcome? = none) :
    free c (m.atop k d) = (free c m).atop k d := by
  rw [Balanced, Nat.zero_add] at hm
  cases turn c m with
  | goes popped new hstack hnew htask hstep =>
    rw [hstack, nestings_append] at hm
    rw [free_inside hstep hfits, free_here hstep]
    simp only [atop, List.append_nil, List.append_assoc, mk.injEq, true_and, and_true]
    omega
  | nests popped hstack hpopped hstep =>
    have halone : ¬ m.depth + 1 ≤ m.depth + 0 := Nat.not_succ_le_self _
    rw [free_inside hstep hfits, free_here hstep, if_neg (Nat.not_succ_le_self _), if_neg halone]
    simp only [atop, List.append_nil, List.cons_append, mk.injEq, true_and, and_true]
    omega
  | ended hsome =>
    rw [hsome] at hended
    cases hended

theorem step_eq_free (hdepth : (free c m).depth ≤ c.maxDepth) : step c m = free c m := by
  cases turn c m with
  | goes popped new hstack hnew htask hstep => rw [step_here hstep, free_here hstep]
  | nests popped hstack hpopped hstep =>
    have halone : ¬ m.depth + 1 ≤ m.depth + 0 := Nat.not_succ_le_self _
    have hfree := free_here hstep
    rw [if_neg halone] at hfree
    rw [hfree] at hdepth
    have hbelow : ¬ c.maxDepth ≤ m.depth + 0 := Nat.not_le_of_lt hdepth
    rw [hfree, step_here hstep, if_neg hbelow]
  | ended hended => rw [free, step_of_ended hended, step_of_ended hended]

def Unlimited (m : Machine) : Prop := ∀ limit, m.task ≠ .error (.limit limit)

theorem Unlimited.free (hm : m.Unlimited) : (m.free c).Unlimited := by
  intro limit herror
  rcases error_of_step herror with hbefore | hordinary | ⟨-, hlimit⟩
  · exact hm limit hbefore
  · exact hordinary
  · exact Nat.not_succ_le_self _ hlimit

/-- Without a limit the machine comes from one state to the other, nowhere deeper than `h`. -/
inductive Leads (c : Context) (h : Nat) : Machine → Machine → Prop
  | refl {m : Machine} (hdepth : m.depth ≤ h) : Leads c h m m
  | step {m m' : Machine} (hdepth : m.depth ≤ h) (hrest : Leads c h (free c m) m') : Leads c h m m'

def Reaches (c : Context) (m m' : Machine) : Prop :=
  ∃ n, (step c)^[n] m = m' ∧ ∀ i ≤ n, ((step c)^[i] m).Unlimited

namespace Leads

theorem trans (hfirst : Leads c h m m') (hrest : Leads c h m' m'') : Leads c h m m'' := by
  induction hfirst with
  | refl hdepth => exact hrest
  | step hdepth _ ih => exact .step hdepth (ih hrest)

theorem depth_le (hleads : Leads c h m m') : m.depth ≤ h := by
  cases hleads with
  | refl hdepth => exact hdepth
  | step hdepth hrest => exact hdepth

theorem eq_of_ended {outcome : Outcome} (hleads : Leads c h m m') (hm : m.outcome? = some outcome) :
    m' = m := by
  induction hleads with
  | refl hdepth => rfl
  | step hdepth hrest ih =>
    rw [free, step_of_ended hm] at ih
    exact ih hm

theorem atop (hleads : Leads c h m m') (hm : m.Balanced 0) (hk : k.head? ≠ some .call) (d : Nat) :
    Leads c (h + d) (m.atop k d) (m'.atop k d) := by
  -- The stack below never shows: alone the machine is balanced, so it ends before it meets `k`.
  induction hleads with
  | refl hdepth => exact .refl (Nat.add_le_add_right hdepth d)
  | @step m m' hdepth hrest ih =>
    cases hended : m.outcome? with
    | none =>
      refine .step (Nat.add_le_add_right hdepth d) ?_
      rw [free_atop hm (fun _ _ _ _ => hk) hended]
      exact ih hm.step
    | some outcome =>
      rw [eq_of_ended (.step hdepth hrest) hended]
      exact .refl (Nat.add_le_add_right hdepth d)

theorem reaches (hleads : Leads c h m m') (hle : h ≤ c.maxDepth) (hm : m.Unlimited) :
    Reaches c m m' := by
  induction hleads with
  | refl hdepth =>
    refine ⟨0, rfl, fun i hi => ?_⟩
    obtain rfl := Nat.le_zero.mp hi
    exact hm
  | step hdepth hrest ih =>
    obtain ⟨n, hn, hbetween⟩ := ih hm.free
    rw [← step_eq_free (Nat.le_trans hrest.depth_le hle)] at hn hbetween
    refine ⟨n + 1, hn, fun i hi => ?_⟩
    cases i with
    | zero => exact hm
    | succ i => exact hbetween i (Nat.le_of_succ_le_succ hi)

end Leads

end HygienicScheme.Machine
