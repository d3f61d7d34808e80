import HygienicScheme.Primitive.Routine
import HygienicScheme.Proofs.Errors.Basic
import Mathlib.Tactic.SplitIfs

/-!
# Primitives fail with ordinary errors

A primitive complains about its arguments, about a number that does not fit, or about what a
program tells it to signal.
-/
namespace HygienicScheme.Ordinary

open HygienicScheme.Action
open Error (Ordinary)

/-! Arguments -/

theorem reject {α : Type} (procedure expected : String) (v : Value) :
    (Argument.reject procedure expected v : Action α).FailsWith Ordinary :=
  (FailsWith.inspect _).bind fun _ => .throw trivial

theorem miscounted {α : Type} (procedure : String) (arity : Arity) (args : List Value) :
    (Argument.miscounted procedure arity args : Action α).FailsWith Ordinary := .throw trivial

theorem int (procedure : String) (v : Value) :
    (Argument.int procedure v).FailsWith Ordinary := by
  cases v <;> first | exact .pure _ | exact reject _ _ _

theorem index (procedure : String) (v : Value) :
    (Argument.index procedure v).FailsWith Ordinary := by
  refine (int procedure v).bind fun n => ?_
  split
  · exact .throw trivial
  · exact .pure _

theorem string (procedure : String) (v : Value) :
    (Argument.string procedure v).FailsWith Ordinary := by
  cases v <;> first | exact .pure _ | exact reject _ _ _

theorem char (procedure : String) (v : Value) :
    (Argument.char procedure v).FailsWith Ordinary := by
  cases v <;> first | exact .pure _ | exact reject _ _ _

theorem pair (procedure : String) (v : Value) :
    (Argument.pair procedure v).FailsWith Ordinary := by
  cases v <;> first | exact .pure _ | exact reject _ _ _

theorem vector (procedure : String) (v : Value) :
    (Argument.vector procedure v).FailsWith Ordinary := by
  cases v <;> first | exact .pure _ | exact reject _ _ _

theorem list (procedure : String) (v : Value) :
    (Argument.list procedure v).FailsWith Ordinary := by
  refine (FailsWith.inspect _).bind fun items => ?_
  cases items with
  | some items => exact .pure items
  | none => exact reject _ _ _

theorem number (procedure : String) (v : Value) :
    (Number.ofValue procedure v).FailsWith Ordinary := by
  cases v <;> first | exact .pure _ | exact reject _ _ _

/-! Numbers -/

theorem fit (operation : String) (n : Int) : Throws (Number.fit operation n) Ordinary := by
  unfold Number.fit
  split
  · exact .ok _
  · exact .error trivial

theorem combine (operation : String) (onInts : Int → Int → Int) (onFloats : Float → Float → Float)
    (a b : Number) : Throws (Number.combine operation onInts onFloats a b) Ordinary := by
  cases a <;> cases b <;> first | exact (fit _ _).map _ | exact .ok _

theorem divide (a b : Number) : Throws (Number.divide a b) Ordinary := by
  unfold Number.divide
  split
  · split_ifs
    · exact .error trivial
    · exact (fit _ _).map _
    · exact .ok _
  · exact .ok _

theorem integerDivision (procedure : String) (f : Int → Int → Int) (a b : Int64) :
    Throws (Number.integerDivision procedure f a b) Ordinary := by
  unfold Number.integerDivision
  split_ifs
  · exact .error trivial
  · exact .error trivial
  · exact (fit _ _).map _

theorem abs (n : Number) : Throws n.abs Ordinary := by
  cases n with
  | int n => exact (fit _ _).map _
  | float x => exact .ok _

theorem expt (b e : Number) : Throws (b.expt e) Ordinary := by
  unfold Number.expt
  split
  · split_ifs
    · split
      · exact .ok _
      · exact .error trivial
    · exact .ok _
  · exact .ok _

theorem toExact (n : Number) : Throws n.toExact Ordinary := by
  unfold Number.toExact
  repeat' split
  all_goals first | exact .ok _ | exact .error trivial

theorem accumulate (procedure : String) {step : Number → Number → Except Error Number}
    (hstep : ∀ a b, Throws (step a b) Ordinary) (start : Number) (args : List Value) :
    (Numeric.accumulate procedure step start args).FailsWith Ordinary := by
  refine FailsWith.bind (.foldlM (fun n v => ?_) start args) fun _ => .pure _
  exact (number procedure v).bind fun next => .except (hstep n next)

theorem unary (procedure : String) {f : Number → Except Error Number}
    (hf : ∀ n, Throws (f n) Ordinary) (v : Value) :
    (Numeric.unary procedure f v).FailsWith Ordinary :=
  (number procedure v).bind fun n => (FailsWith.except (hf n)).bind fun _ => .pure _

theorem integers (procedure : String) {f : Int64 → Int64 → Except Error Number}
    (hf : ∀ a b, Throws (f a b) Ordinary) (a b : Value) :
    (Numeric.integers procedure f a b).FailsWith Ordinary :=
  (int procedure a).bind fun a => (int procedure b).bind fun b =>
    (FailsWith.except (hf a b)).bind fun _ => .pure _

theorem numbers (procedure : String) (vs : List Value) :
    (vs.mapM (Number.ofValue procedure)).FailsWith Ordinary := .mapM fun v _ => number procedure v

theorem extremum (procedure : String) (keeps : Float → Float → Bool) (first : Value)
    (more : List Value) : (Numeric.extremum procedure keeps first more).FailsWith Ordinary :=
  (number procedure first).bind fun _ => (numbers procedure more).bind fun _ => .pure _

theorem numberComparison (procedure : String) (ints : Int → Int → Bool)
    (floats : Float → Float → Bool) (args : List Value) :
    (Numeric.comparison procedure ints floats args).FailsWith Ordinary :=
  (numbers procedure args).bind fun _ => .pure _

theorem test (procedure : String) (ints : Int → Bool) (floats : Float → Bool) (v : Value) :
    (Numeric.test procedure ints floats v).FailsWith Ordinary :=
  (number procedure v).bind fun n => by cases n <;> exact .pure _

theorem parity (procedure : String) (rest : Int) (v : Value) :
    (Numeric.parity procedure rest v).FailsWith Ordinary :=
  (int procedure v).bind fun _ => .pure _

theorem numeric (op : Numeric) (args : List Value) : (op.run args).FailsWith Ordinary := by
  have add : ∀ a b, Throws (Number.add a b) Ordinary := combine _ _ _
  have multiply : ∀ a b, Throws (Number.multiply a b) Ordinary := combine _ _ _
  have subtract : ∀ a b, Throws (Number.subtract a b) Ordinary := combine _ _ _
  have negate : ∀ n, Throws (Number.negate n) Ordinary := combine _ _ _ _
  have reciprocal : ∀ n, Throws (Number.divide (.int 1) n) Ordinary := divide _
  have quotient : ∀ a b, Throws (Number.quotient a b) Ordinary := integerDivision _ _
  have remainder : ∀ a b, Throws (Number.remainder a b) Ordinary := integerDivision _ _
  have modulo : ∀ a b, Throws (Number.modulo a b) Ordinary := integerDivision _ _
  have divide : ∀ a b, Throws (Number.divide a b) Ordinary := divide
  have abs : ∀ n, Throws (Number.abs n) Ordinary := abs
  have toExact : ∀ n, Throws (Number.toExact n) Ordinary := toExact
  unfold Numeric.run
  split
  -- Most operations are one of these shapes.
  all_goals first
    | exact accumulate _ (by assumption) _ _
    | exact unary _ (by assumption) _
    | exact integers _ (by assumption) _ _
    | exact (number _ _).bind fun _ => accumulate _ (by assumption) _ _
    | exact unary _ (fun _ => .ok _) _
    | exact extremum _ _ _ _
    | exact numberComparison _ _ _ _
    | exact test _ _ _ _
    | exact parity _ _ _
    | exact miscounted _ _ _
    | exact .pure _
    | skip
  · exact (number _ _).bind fun b => (number _ _).bind fun e =>
      (FailsWith.except (expt b e)).bind fun _ => .pure _
  · exact (number _ _).bind fun _ => (FailsWith.inspect _).bind fun _ => .lift _
  · exact (string _ _).bind fun _ => .pure _

/-! Texts -/

theorem slice (cs : List Char) (start stop : Nat) :
    Throws (Textual.slice cs start stop) Ordinary := by
  unfold Textual.slice
  split
  · exact .error trivial
  · exact .ok _

theorem textComparison (procedure : String) (holds : String → String → Bool) (args : List Value) :
    (Textual.comparison procedure holds args).FailsWith Ordinary :=
  FailsWith.bind (.mapM fun v _ => string procedure v) fun _ => .pure _

theorem textual (op : Textual) (args : List Value) : (op.run args).FailsWith Ordinary := by
  unfold Textual.run
  split
  all_goals first
    | exact textComparison _ _ _
    | exact miscounted _ _ _
    | exact reject _ _ _
    | exact .lift _
    | exact (string _ _).bind fun _ => .pure _
    | exact (string _ _).bind fun _ => .lift _
    | exact (char _ _).bind fun _ => .pure _
    | skip
  · exact FailsWith.bind (.mapM fun v _ => string _ v) fun _ => .lift _
  · refine (string _ _).bind fun text => (index _ _).bind fun start => ?_
    have hslice : ∀ stop, (liftM (Textual.slice text.toList start stop) >>= fun part =>
        liftM (Build.string part) : Action Value).FailsWith Ordinary := fun stop =>
      (FailsWith.except (slice _ _ _)).bind fun _ => .lift _
    dsimp only
    split
    · exact hslice _
    · exact (index _ _).bind hslice
  · refine (string _ _).bind fun text => (index _ _).bind fun k => ?_
    split
    · exact .pure _
    · exact .throw trivial
  · exact (list _ _).bind fun items => FailsWith.bind (.mapM fun v _ => char _ v) fun _ => .lift _
  · refine (int _ _).bind fun n => ?_
    split
    · exact .pure _
    · exact .throw trivial

/-! Lists -/

theorem carOf (procedure : String) (v : Value) : (Listing.carOf procedure v).FailsWith Ordinary :=
  (pair procedure v).bind fun _ => .inspect _

theorem cdrOf (procedure : String) (v : Value) : (Listing.cdrOf procedure v).FailsWith Ordinary :=
  (pair procedure v).bind fun _ => .inspect _

theorem path {steps : List (Value → Action Value)}
    (hsteps : ∀ step ∈ steps, ∀ v, (step v).FailsWith Ordinary) (v : Value) :
    (Listing.path steps v).FailsWith Ordinary := by
  unfold Listing.path
  induction steps generalizing v with
  | nil => exact .pure v
  | cons step more ih =>
    obtain ⟨hstep, hmore⟩ := List.forall_mem_cons.mp hsteps
    rw [List.foldlM_cons]
    exact (hstep v).bind fun w => ih hmore w

theorem appendItems (vs : List Value) : (Listing.appendItems vs).FailsWith Ordinary := by
  induction vs with
  | nil => exact .pure []
  | cons v more ih => exact (list _ v).bind fun _ => ih.bind fun _ => .pure _

theorem tailOf (v : Value) (count : Nat) : (Listing.tailOf v count).FailsWith Ordinary := by
  refine (FailsWith.inspect _).bind fun tail => ?_
  cases tail with
  | some w => exact .pure w
  | none => exact .throw trivial

theorem matching (same : Listing.Equivalence) (a b : Value) :
    (Listing.matching same a b).FailsWith Ordinary :=
  (FailsWith.inspect _).bind fun answer => .ended trivial answer

theorem findTail (procedure : String) (same : Listing.Equivalence) (v : Value) (n : Nat)
    (rest : Value) : (Listing.findTail procedure same v n rest).FailsWith Ordinary := by
  induction n generalizing rest with
  | zero => exact .throw trivial
  | succ n ih =>
    unfold Listing.findTail
    cases rest with
    | pair a =>
      refine (FailsWith.inspect _).bind fun p => (matching same v _).bind fun found => ?_
      cases found with
      | true => exact .pure _
      | false => exact ih _
    | null => exact .pure _
    | _ => exact reject _ _ _

theorem findEntry (procedure : String) (same : Listing.Equivalence) (v : Value)
    (entries : List Value) : (Listing.findEntry procedure same v entries).FailsWith Ordinary := by
  induction entries with
  | nil => exact .pure _
  | cons entry more ih =>
    refine (carOf procedure entry).bind fun key => (matching same v key).bind fun found => ?_
    cases found with
    | true => exact .pure _
    | false => exact ih

theorem memberBy (procedure : String) (same : Listing.Equivalence) (v items : Value) :
    (Listing.memberBy procedure same v items).FailsWith Ordinary :=
  (FailsWith.inspect _).bind fun steps => findTail procedure same v steps items

theorem assocBy (procedure : String) (same : Listing.Equivalence) (v entries : Value) :
    (Listing.assocBy procedure same v entries).FailsWith Ordinary :=
  (list procedure entries).bind fun entries => findEntry procedure same v entries

theorem setPair (procedure : String) (change : Pair → Pair) (p : Value) :
    (do Listing.setPair change (← Argument.pair procedure p); return .unspecified :
      Action Value).FailsWith Ordinary :=
  (pair procedure p).bind fun _ => (FailsWith.change _).bind fun _ => .pure _

theorem listing (op : Listing) (args : List Value) : (op.run args).FailsWith Ordinary := by
  unfold Listing.run
  split
  all_goals first
    | exact carOf _ _
    | exact cdrOf _ _
    | exact memberBy _ _ _ _
    | exact assocBy _ _ _ _
    | exact path (by simp [carOf, cdrOf]) _
    | exact setPair _ _ _
    | exact miscounted _ _ _
    | exact .pure _
    | exact .lift _
    | exact (list _ _).bind fun _ => .pure _
    | exact (list _ _).bind fun _ => .lift _
    | exact (index _ _).bind fun k => tailOf _ k
    | exact (FailsWith.inspect _).bind fun _ => .pure _
    | skip
  · split
    · exact .pure _
    · exact (appendItems _).bind fun _ => .lift _
  · refine (index _ _).bind fun k => (tailOf _ k).bind fun v => ?_
    refine (FailsWith.inspect _).bind fun w => ?_
    cases w with
    | some w => exact .pure w
    | none => exact .throw trivial

/-! Vectors -/

theorem heldIndex (a : Address) (k : Value) : (Vectorial.heldIndex a k).FailsWith Ordinary := by
  unfold Vectorial.heldIndex
  split
  · exact index _ _
  · refine (FailsWith.inspect _).bind fun shown => ?_
    split
    · exact .throw trivial
    · exact .throw trivial

theorem vectorial (op : Vectorial) (args : List Value) : (op.run args).FailsWith Ordinary := by
  unfold Vectorial.run
  split
  all_goals first
    | exact .lift _
    | exact miscounted _ _ _
    | exact (index _ _).bind fun _ => .lift _
    | exact (list _ _).bind fun _ => .lift _
    | exact (vector _ _).bind fun _ => (FailsWith.inspect _).bind fun _ => .lift _
    | exact (vector _ _).bind fun _ => (FailsWith.inspect _).bind fun _ => .pure _
    | exact (vector _ _).bind fun _ => (FailsWith.change _).bind fun _ => .pure _
    | skip
  · refine (vector _ _).bind fun a => (index _ _).bind fun k => (FailsWith.inspect _).bind
      fun items => ?_
    split
    · exact .pure _
    · exact .throw trivial
  · refine (vector _ _).bind fun a => (heldIndex a _).bind fun k => (FailsWith.inspect _).bind
      fun length => ?_
    split
    · exact (FailsWith.change _).bind fun _ => .pure _
    · exact .throw trivial

/-! All routines -/

theorem predicate (op : Predicate) (args : List Value) : (op.run args).FailsWith Ordinary := by
  unfold Predicate.run
  split
  all_goals first
    | exact .pure _
    | exact miscounted _ _ _
    | exact (matching _ _ _).bind fun _ => .pure _

theorem messagePart (v : Value) : (Routine.messagePart v).FailsWith Ordinary := by
  cases v <;> first | exact .pure _ | exact .inspect _

/-- The message of a signalled error is text of the program, but its cause is not that of a
report. -/
theorem routine (r : Routine) (args : List Value) : (r.run args).FailsWith Ordinary := by
  unfold Routine.run
  split
  · exact numeric _ _
  · exact listing _ _
  · exact predicate _ _
  · exact textual _ _
  · exact vectorial _ _
  · split
    · exact .lift _
    · exact reject _ _ _
  · exact FailsWith.bind (.mapM fun v _ => messagePart v) fun _ => .throw trivial
  · exact miscounted _ _ _

end HygienicScheme.Ordinary
