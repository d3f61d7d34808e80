import HygienicScheme.Proofs.Primitives.Calls
import HygienicScheme.Proofs.Primitives.HeapEffects
import HygienicScheme.Proofs.Reading.Scanning

/-!
# Primitives do what their calls do

Where no cell is held for writing, the checks of a call find nothing wrong: its arity lets it take
its arguments by position, every integer operation has a result, and a cell that is held for reading
may be shown. So every primitive that does not write agrees with its call.
-/
namespace HygienicScheme

namespace Guarded

open HygienicScheme.Action

variable {α β : Type} {args : List Value}

/-! Taking arguments -/

theorem Agrees.item {items : List α} {i : Nat} {a : α} {f : α → Guarded β} {y : Action β}
    (h : items[i]? = some a) (hf : Agrees (f a) y) : Agrees (Guarded.item items i >>= f) y := by
  unfold Guarded.item
  rw [h]
  exact hf

theorem Agrees.itemsFrom {items : List α} {i : Nat} {f : List α → Guarded β} {y : Action β}
    (h : i ≤ items.length) (hf : Agrees (f (items.drop i)) y) :
    Agrees (Guarded.itemsFrom items i >>= f) y := by
  unfold Guarded.itemsFrom
  rw [if_pos h]
  exact hf

theorem Agrees.congr {x : Guarded α} {y z : Action α} (hx : Agrees x y) (h : y = z) :
    Agrees x z := h ▸ hx

theorem exists_of_one (h : (Arity.exactly 1).accepts args.length) : ∃ v, args = [v] :=
  List.length_eq_one_iff.mp (by simpa [Arity.accepts] using h)

theorem exists_of_two (h : (Arity.exactly 2).accepts args.length) : ∃ v w, args = [v, w] :=
  List.length_eq_two.mp (by simpa [Arity.accepts] using h)

theorem exists_of_three (h : (Arity.exactly 3).accepts args.length) :
    ∃ v w x, args = [v, w, x] := List.length_eq_three.mp (by simpa [Arity.accepts] using h)

theorem exists_of_two_or_three (h : (Arity.between 2 3).accepts args.length) :
    (∃ v w, args = [v, w]) ∨ ∃ v w x, args = [v, w, x] := by
  simp only [Arity.accepts, Bool.and_eq_true, decide_eq_true_eq] at h
  rw [← List.length_eq_two, ← List.length_eq_three]
  omega

theorem exists_of_some (h : (Arity.atLeast 1).accepts args.length) :
    ∃ v more, args = v :: more := by
  cases args with
  | nil => cases h
  | cons v more => exact ⟨v, more, rfl⟩

theorem agrees_reject (procedure expected : String) (v : Value) :
    Agrees (reject procedure expected v : Guarded α) (Argument.reject procedure expected v) :=
  (Agrees.written v).bind fun _ => .throw _

theorem agrees_list (procedure : String) (v : Value) :
    Agrees (list procedure v) (Argument.list procedure v) := by
  refine (Agrees.survey _).bind fun items => ?_
  cases items with
  | some items => exact .pure items
  | none => exact agrees_reject _ _ _

/-! Numbers -/

theorem agrees_accumulate (procedure : String) (step : Number → Number → Except Error Number)
    (start : Number) (args : List Value) :
    Agrees (accumulate procedure step start args)
      (Numeric.accumulate procedure step start args) := by
  refine Agrees.bind (.foldlM (fun n v => ?_) start args) fun _ => .pure _
  exact (Agrees.check _ v).bind fun next => .except _

theorem agrees_unary (procedure : String) (f : Number → Except Error Number) (v : Value) :
    Agrees (unary procedure f [v]) (Numeric.unary procedure f v) :=
  .item rfl ((Agrees.check _ v).bind fun _ => (Agrees.except _).bind fun _ => .pure _)

theorem agrees_subtractive_one (procedure : String) (alone : Number → Except Error Number)
    (step : Number → Number → Except Error Number) (v : Value) :
    Agrees (subtractive procedure alone step [v]) (Numeric.unary procedure alone v) :=
  .item rfl ((Agrees.check _ v).bind fun _ => (Agrees.except _).bind fun _ => .pure _)

theorem agrees_subtractive_more (procedure : String) (alone : Number → Except Error Number)
    (step : Number → Number → Except Error Number) (v w : Value) (more : List Value) :
    Agrees (subtractive procedure alone step (v :: w :: more))
      (Number.ofValue procedure v >>= fun first =>
        Numeric.accumulate procedure step first (w :: more)) := by
  refine .item rfl ((Agrees.check _ v).bind fun first => ?_)
  rw [if_neg (by simp)]
  exact .itemsFrom (by simp) (agrees_accumulate _ _ _ _)

theorem agrees_integers (procedure : String) {f : Int64 → Int64 → Guarded Number}
    {g : Int64 → Int64 → Except Error Number} (hfg : ∀ a b, Agrees (f a b) (liftM (g a b)))
    (v w : Value) : Agrees (integers procedure f [v, w]) (Numeric.integers procedure g v w) :=
  .item rfl ((Agrees.check _ v).bind fun a => .item rfl ((Agrees.check _ w).bind fun b =>
    (hfg a b).bind fun _ => .pure _))

theorem fmod_eq (m : Int) {d : Int} (hd : d ≠ 0) :
    m.fmod d = if m.tmod d ≠ 0 ∧ decide (m.tmod d < 0) ≠ decide (d < 0) then m.tmod d + d
      else m.tmod d := by
  have hlow := Int.emod_nonneg m hd
  have hhigh := Int.emod_lt m hd
  rw [Int.tmod_eq_emod, Int.fmod_eq_emod]
  simp only [Int.dvd_iff_emod_eq_zero]
  generalize m % d = e at *
  by_cases he : e = 0
  · simp [he]
  · simp only [ne_eq, decide_eq_decide, he, or_false]
    split_ifs <;> omega

theorem sum_of_signs {r b : Int64} (h : decide (r < 0) ≠ decide (b < 0)) :
    sum r b = pure (r + b) ∧ Decimal.whole? (r.toInt + b.toInt) = some (r + b) := by
  have hzero : (0 : Int64).toInt = 0 := rfl
  have hr := Int64.minValue_le_toInt r
  have hr' := Int64.toInt_le r
  have hb := Int64.minValue_le_toInt b
  have hb' := Int64.toInt_le b
  simp only [Int64.lt_iff_toInt_lt, hzero, ne_eq, decide_eq_decide] at h
  have hfits : Int64.minValue.toInt ≤ r.toInt + b.toInt ∧
      r.toInt + b.toInt ≤ Int64.maxValue.toInt := by
    by_cases hneg : r.toInt < 0
    · have hpos : ¬ b.toInt < 0 := fun hbneg => h (by simp [hneg, hbneg])
      omega
    · have hpos : b.toInt < 0 := by
        by_contra hbpos
        exact h (by simp [hneg, hbpos])
      omega
  constructor
  · rw [sum, if_pos hfits]
  · rw [Decimal.whole?, if_pos hfits, Int64.ofInt_add, Int64.ofInt_toInt, Int64.ofInt_toInt]

theorem agrees_modulo (a b : Int64) : Agrees (modulo a b) (liftM (Number.modulo a b)) := by
  unfold modulo Number.modulo Number.integerDivision
  split
  · exact .except (.error _)
  · rename_i hb
    split
    · exact .except (.error _)
    · rename_i hover
      have hrem : remainder a b = pure (a % b) := by
        simp only [Number.divisionOverflows, Bool.and_eq_true, beq_iff_eq] at hover
        rw [remainder, if_neg (by simp [hb, hover])]
      have hd : b.toInt ≠ 0 := fun h => hb (Int64.toInt_inj.mp h)
      have hr : (a % b).toInt = a.toInt.tmod b.toInt := Int64.toInt_mod a b
      have hzero : (0 : Int64).toInt = 0 := rfl
      have hcond : (a.toInt.tmod b.toInt ≠ 0 ∧
          decide (a.toInt.tmod b.toInt < 0) ≠ decide (b.toInt < 0)) ↔
            a % b ≠ 0 ∧ decide (a % b < 0) ≠ decide (b < 0) := by
        simp only [← hr, ne_eq, ← Int64.toInt_inj, Int64.lt_iff_toInt_lt, hzero]
      rw [hrem, pure_bind, Number.fit, fmod_eq _ hd]
      simp only [hcond]
      split
      · rename_i hsigns
        obtain ⟨hsum, hwhole⟩ := sum_of_signs hsigns.2
        rw [hsum, ← hr, hwhole]
        exact .pure _
      · rw [← hr, Reader.whole?_toInt]
        exact .pure _

theorem neighbours_eq (holds : α → α → Bool) (items : List α) :
    neighbours holds items = pure (Number.chain holds items) := by
  induction items with
  | nil => rfl
  | cons a more ih =>
    cases more with
    | nil => rfl
    | cons b more =>
      have hwindow : neighbours holds (a :: b :: more) =
          match holds a b with
          | true => neighbours holds (b :: more)
          | false => pure false := rfl
      rw [hwindow, Number.chain]
      cases holds a b with
      | true => exact ih
      | false => rfl

theorem agrees_comparison (procedure : String) (ints : Int → Int → Bool)
    (floats : Float → Float → Bool) (args : List Value) :
    Agrees (comparison procedure ints floats args)
      (Numeric.comparison procedure ints floats args) := by
  refine (Agrees.mapM (fun v => .check _ v) args).bind fun numbers => ?_
  rw [neighbours_eq]
  exact .pure _

theorem agrees_test (procedure : String) (ints : Int → Bool) (floats : Float → Bool) (v : Value) :
    Agrees (test procedure ints floats [v]) (Numeric.test procedure ints floats v) :=
  .item rfl ((Agrees.check _ v).bind fun n => by cases n <;> exact .pure _)

theorem remainder_two (n : Int64) : remainder n 2 = pure (n % 2) := by
  rw [remainder, if_neg]
  rintro (h | ⟨-, h⟩)
  · exact absurd h (by decide)
  · exact absurd h (by decide)

theorem agrees_parity (procedure : String) {holds : Int64 → Bool} {rest : Int}
    (hrest : ∀ n : Int64, holds (n % 2) = (n.toInt % 2 == rest)) (v : Value) :
    Agrees (parity procedure holds [v]) (Numeric.parity procedure rest v) := by
  refine .item rfl ((Agrees.check _ v).bind fun n => ?_)
  rw [remainder_two, pure_bind, hrest]
  exact .pure _

theorem toInt_mod_two (n : Int64) : (n % 2).toInt = 0 ↔ n.toInt % 2 = 0 := by
  have htwo : (2 : Int64).toInt = 2 := rfl
  rw [Int64.toInt_mod, htwo]
  exact Int.dvd_iff_tmod_eq_zero.symm.trans Int.dvd_iff_emod_eq_zero

theorem odd_eq (n : Int64) : (n % 2 != 0) = (n.toInt % 2 == 1) := by
  have hzero : (0 : Int64).toInt = 0 := rfl
  rw [Bool.eq_iff_iff, bne_iff_ne, beq_iff_eq, ne_eq, ← Int64.toInt_inj, hzero, toInt_mod_two]
  omega

theorem even_eq (n : Int64) : (n % 2 == 0) = (n.toInt % 2 == 0) := by
  have hzero : (0 : Int64).toInt = 0 := rfl
  rw [Bool.eq_iff_iff, beq_iff_eq, beq_iff_eq, ← Int64.toInt_inj, hzero, toInt_mod_two]

theorem agrees_extremum (procedure : String) (keeps : Float → Float → Bool) (v : Value)
    (more : List Value) : Agrees (extremum procedure keeps (v :: more))
      (Numeric.extremum procedure keeps v more) := by
  unfold extremum
  rw [List.mapM_cons]
  simp only [bind_assoc, pure_bind]
  refine (Agrees.check _ v).bind fun first => (Agrees.mapM (fun w => .check _ w) more).bind
    fun numbers => .item rfl (.itemsFrom (by simp) ?_)
  have hvalue : (Number.extremum keeps first numbers).toValue =
      if (first :: numbers).any Number.isFloat then
        .float (numbers.foldl (Number.pick keeps) first).toFloat
      else (numbers.foldl (Number.pick keeps) first).toValue := by
    unfold Number.extremum
    dsimp only
    split <;> rfl
  rw [hvalue]
  exact .pure _

theorem agrees_numeric (op : Numeric) (hcount : op.arity.accepts args.length) :
    Agrees (numeric op args) (op.run args) := by
  cases op with
  | add => exact agrees_accumulate _ _ _ _
  | multiply => exact agrees_accumulate _ _ _ _
  | subtract | divide =>
    obtain ⟨v, more, rfl⟩ := exists_of_some hcount
    cases more with
    | nil => exact agrees_subtractive_one _ _ _ _
    | cons w more => exact agrees_subtractive_more _ _ _ _ _ _
  | quotient | remainder =>
    obtain ⟨v, w, rfl⟩ := exists_of_two hcount
    exact agrees_integers _ (fun _ _ => .except _) _ _
  | modulo =>
    obtain ⟨v, w, rfl⟩ := exists_of_two hcount
    exact agrees_integers _ agrees_modulo _ _
  | abs | floor | ceiling | round | truncate | sqrt | toInexact | toExact =>
    obtain ⟨v, rfl⟩ := exists_of_one hcount
    exact agrees_unary _ _ _
  | max | min =>
    obtain ⟨v, more, rfl⟩ := exists_of_some hcount
    exact agrees_extremum _ _ _ _
  | expt =>
    obtain ⟨v, w, rfl⟩ := exists_of_two hcount
    exact .item rfl ((Agrees.check _ v).bind fun b => .item rfl ((Agrees.check _ w).bind fun e =>
      (Agrees.except _).bind fun _ => .pure _))
  | toText =>
    obtain ⟨v, rfl⟩ := exists_of_one hcount
    exact .item rfl ((Agrees.check _ v).bind fun n => (Agrees.written _).bind fun _ => .lift _)
  | ofText =>
    obtain ⟨v, rfl⟩ := exists_of_one hcount
    exact .item rfl ((Agrees.check _ v).bind fun _ => .pure _)
  | equal | less | greater | atMost | atLeast => exact agrees_comparison _ _ _ _
  | isZero =>
    obtain ⟨v, rfl⟩ := exists_of_one hcount
    exact agrees_test "zero?" (· == 0) (· == 0) v
  | isPositive =>
    obtain ⟨v, rfl⟩ := exists_of_one hcount
    exact agrees_test "positive?" (fun n => n > 0) (fun x => x > 0) v
  | isNegative =>
    obtain ⟨v, rfl⟩ := exists_of_one hcount
    exact agrees_test "negative?" (fun n => n < 0) (fun x => x < 0) v
  | isOdd =>
    obtain ⟨v, rfl⟩ := exists_of_one hcount
    exact agrees_parity _ odd_eq v
  | isEven =>
    obtain ⟨v, rfl⟩ := exists_of_one hcount
    exact agrees_parity _ even_eq v
  | isNumber | isInteger =>
    obtain ⟨v, rfl⟩ := exists_of_one hcount
    exact .item rfl (.pure _)

/-! Lists -/

theorem agrees_carOf (procedure : String) (v : Value) :
    Agrees (carOf procedure v) (Listing.carOf procedure v) :=
  (Agrees.check _ v).bind fun _ => .reading _ (.look _)

theorem agrees_cdrOf (procedure : String) (v : Value) :
    Agrees (cdrOf procedure v) (Listing.cdrOf procedure v) :=
  (Agrees.check _ v).bind fun _ => .reading _ (.look _)

theorem agrees_path {steps : List (Value → Guarded Value)} {steps' : List (Value → Action Value)}
    (h : List.Forall₂ (fun x y => ∀ v, Agrees (x v) (y v)) steps steps') (v : Value) :
    Agrees (path steps [v]) (Listing.path steps' v) := by
  refine .item rfl ?_
  unfold Listing.path
  induction h generalizing v with
  | nil => exact .pure v
  | cons hstep _ ih =>
    rw [List.foldlM_cons, List.foldlM_cons]
    exact (hstep v).bind ih

theorem agrees_appendItems (vs : List Value) :
    Agrees (appendItems vs) (Listing.appendItems vs) := by
  induction vs with
  | nil => exact .pure []
  | cons v more ih => exact (agrees_list "append" v).bind fun _ => ih.bind fun _ => .pure _

theorem agrees_ended (a : Option α) : Agrees (ended a) (Action.ended a) := by
  cases a with
  | some a => exact .pure a
  | none => exact .throw _

theorem agrees_matching (same : Listing.Equivalence) (a b : Value) :
    Agrees (matching same a b) (Listing.matching same a b) :=
  (Agrees.survey _).bind agrees_ended

theorem agrees_findTail (procedure : String) (same : Listing.Equivalence) (v items : Value)
    (n : Nat) (rest : Value) : Agrees (findTail procedure same [v, items] n rest)
      (Listing.findTail procedure same v n rest) := by
  induction n generalizing rest with
  | zero => exact .throw _
  | succ n ih =>
    unfold Listing.findTail findTail
    cases rest with
    | pair a =>
      refine .item rfl (Agrees.congr (y := (inspect (·.pairAt a) >>= fun p =>
        Listing.matching same v p.car >>= fun found => pure (found, p.cdr)) >>= fun next =>
          if next.1 then pure (.pair a) else Listing.findTail procedure same v n next.2) ?_ ?_)
      · refine (Agrees.reading _ ((Agrees.look _).bind fun p => (agrees_matching _ _ _).bind
          fun found => .pure _)).bind fun next => ?_
        obtain ⟨found, next⟩ := next
        cases found with
        | true => exact .pure _
        | false => exact ih next
      · simp only [bind_assoc, pure_bind]
    | null => exact .pure _
    | _ => exact agrees_reject _ _ _

theorem agrees_findEntry (procedure : String) (same : Listing.Equivalence) (v items : Value)
    (entries : List Value) : Agrees (findEntry procedure same [v, items] entries)
      (Listing.findEntry procedure same v entries) := by
  induction entries with
  | nil => exact .pure _
  | cons entry more ih =>
    refine (agrees_carOf procedure entry).bind fun key => .item rfl
      ((agrees_matching same v key).bind fun found => ?_)
    cases found with
    | true => exact .pure _
    | false => exact ih

theorem agrees_memberBy (procedure : String) (same : Listing.Equivalence) (v items : Value) :
    Agrees (memberBy procedure same [v, items]) (Listing.memberBy procedure same v items) :=
  .item rfl ((Agrees.look _).bind fun _ => agrees_findTail _ _ _ _ _ _)

theorem agrees_assocBy (procedure : String) (same : Listing.Equivalence) (v items : Value) :
    Agrees (assocBy procedure same [v, items]) (Listing.assocBy procedure same v items) :=
  .item rfl ((agrees_list _ _).bind fun _ => agrees_findEntry _ _ _ _ _)

theorem agrees_tail (v k : Value) :
    Agrees (tail [v, k]) (Argument.index "list-tail" k >>= fun n => Listing.tailOf v n) := by
  refine .item rfl ((Agrees.check _ k).bind fun n => .item rfl ((Agrees.survey _).bind
    fun rest => ?_))
  cases rest with
  | some w => exact .pure w
  | none => exact .throw _

theorem check_pure {test : Value → Action α} {v : Value} {a : α} (h : test v = pure a) :
    check test v = pure a := by
  unfold check
  rw [h]
  rfl

theorem Agrees.bind_error {x : Guarded α} {y : Action α} (hx : Agrees x y)
    (hy : ∀ s, ∃ e, y s = .error e s) (f : α → Guarded β) (g : α → Action β) :
    Agrees (x >>= f) (y >>= g) := by
  intro h s hw
  obtain ⟨e, he⟩ := hy s
  rw [bind_apply, hx h s hw, he, Action.bind_error he]

theorem agrees_index_bind {procedure : String} {k : Value} {f : Nat → Guarded β}
    {g : Nat → Action β} (h : ∀ n : Int64, k = .int n → ¬ n.toInt < 0 →
      Agrees (f n.toInt.toNat) (g n.toInt.toNat)) :
    Agrees (index procedure k >>= f) (Argument.index procedure k >>= g) := by
  by_cases hk : ∃ n, k = .int n ∧ ¬ n.toInt < 0
  · obtain ⟨n, rfl, hn⟩ := hk
    have hindex : index procedure (.int n) = pure n.toInt.toNat :=
      check_pure (Argument.index_of_nonneg _ hn)
    rw [hindex, Argument.index_of_nonneg _ hn, pure_bind, pure_bind]
    exact h n rfl hn
  · refine (Agrees.check _ k).bind_error (Argument.index_error fun n hn => ?_) _ _
    by_contra hneg
    exact hk ⟨n, hn, hneg⟩

theorem run_ref (v k : Value) : Listing.run .ref [v, k] =
    Argument.index "list-ref" k >>= fun n =>
      Listing.tailOf v n >>= fun rest => inspect (·.car? rest) >>= fun item =>
        match item with
        | some v => pure v
        | none => MonadExcept.throw (.range (.pastEnd "list-ref" n)) :=
  rfl

theorem agrees_ref (v k : Value) : Agrees (listing .ref [v, k]) (Listing.run .ref [v, k]) := by
  rw [run_ref]
  refine .item rfl (agrees_index_bind fun n hk hn => ?_)
  subst hk
  have htail : Agrees (tail [v, .int n]) (Listing.tailOf v n.toInt.toNat) :=
    (agrees_tail v (.int n)).congr (by rw [Argument.index_of_nonneg _ hn, pure_bind])
  refine htail.bind fun rest => (Agrees.survey _).bind fun item => ?_
  cases item with
  | some w => exact .pure w
  | none => exact .throw _

theorem agrees_listing (op : Listing) (hop : op.writes = false)
    (hcount : op.arity.accepts args.length) : Agrees (listing op args) (op.run args) := by
  cases op with
  | setCar | setCdr => cases hop
  | cons =>
    obtain ⟨v, w, rfl⟩ := exists_of_two hcount
    exact .item rfl (.item rfl (.lift _))
  | car =>
    obtain ⟨v, rfl⟩ := exists_of_one hcount
    exact .item rfl (agrees_carOf _ _)
  | cdr =>
    obtain ⟨v, rfl⟩ := exists_of_one hcount
    exact .item rfl (agrees_cdrOf _ _)
  | caar | cadr | cdar | cddr | caddr =>
    obtain ⟨v, rfl⟩ := exists_of_one hcount
    exact agrees_path (by simp [agrees_carOf, agrees_cdrOf]) v
  | list => exact .lift _
  | length =>
    obtain ⟨v, rfl⟩ := exists_of_one hcount
    exact .item rfl ((agrees_list _ _).bind fun _ => .pure _)
  | append =>
    unfold listing Listing.run
    dsimp only
    cases args.getLast? with
    | none => exact .pure _
    | some last => exact (agrees_appendItems _).bind fun _ => .lift _
  | reverse =>
    obtain ⟨v, rfl⟩ := exists_of_one hcount
    exact .item rfl ((agrees_list _ _).bind fun _ => .lift _)
  | tail =>
    obtain ⟨v, k, rfl⟩ := exists_of_two hcount
    exact agrees_tail v k
  | ref =>
    obtain ⟨v, k, rfl⟩ := exists_of_two hcount
    exact agrees_ref v k
  | memq | memv | member =>
    obtain ⟨v, items, rfl⟩ := exists_of_two hcount
    exact agrees_memberBy _ _ _ _
  | assq | assv | assoc =>
    obtain ⟨v, items, rfl⟩ := exists_of_two hcount
    exact agrees_assocBy _ _ _ _
  | isPair | isNull | isNil =>
    obtain ⟨v, rfl⟩ := exists_of_one hcount
    exact .item rfl (.pure _)
  | isList =>
    obtain ⟨v, rfl⟩ := exists_of_one hcount
    exact .item rfl ((Agrees.survey _).bind fun _ => .pure _)

/-! Equivalences and tests of type -/

theorem agrees_predicate (op : Predicate) (hcount : op.arity.accepts args.length) :
    Agrees (predicate op args) (op.run args) := by
  cases op with
  | eq | eqv =>
    obtain ⟨v, w, rfl⟩ := exists_of_two hcount
    exact .item rfl (.item rfl (.pure _))
  | equal =>
    obtain ⟨v, w, rfl⟩ := exists_of_two hcount
    exact .item rfl (.item rfl ((agrees_matching _ _ _).bind fun _ => .pure _))
  | _ =>
    obtain ⟨v, rfl⟩ := exists_of_one hcount
    exact .item rfl (.pure _)

/-! Symbols, strings and characters -/

theorem agrees_textComparison (procedure : String) (holds : String → String → Bool)
    (args : List Value) :
    Agrees (textComparison procedure holds args) (Textual.comparison procedure holds args) := by
  refine (Agrees.mapM (fun v => .check _ v) args).bind fun texts => ?_
  rw [neighbours_eq]
  exact .pure _

theorem agrees_slice (text : String) (start stop : Nat) :
    Agrees (if stop < start ∨ text.toList.length < stop then
        Guarded.throw (.range (.substring start stop text.toList.length))
      else do
        let part ← itemsBetween text.toList start stop
        Build.string (String.ofList part) : Guarded Value)
      (do
        let part ← Textual.slice text.toList start stop
        Build.string part) := by
  unfold Textual.slice
  split
  · exact .throw _
  · rename_i hrange
    unfold itemsBetween
    rw [if_pos (by omega)]
    exact .lift _

theorem agrees_textual (op : Textual) (hcount : op.arity.accepts args.length) :
    Agrees (textual op args) (op.run args) := by
  cases op with
  | symbolToString =>
    obtain ⟨v, rfl⟩ := exists_of_one hcount
    refine .item rfl ?_
    cases v with
    | symbol s => exact .lift _
    | _ => exact agrees_reject _ _ _
  | stringToSymbol | length | charToInteger =>
    obtain ⟨v, rfl⟩ := exists_of_one hcount
    exact .item rfl ((Agrees.check _ v).bind fun _ => .pure _)
  | append => exact (Agrees.mapM (fun v => .check _ v) args).bind fun _ => .lift _
  | substring =>
    obtain ⟨v, start, rfl⟩ | ⟨v, start, stop, rfl⟩ := exists_of_two_or_three hcount
    · exact .item rfl ((Agrees.check _ v).bind fun text => .item rfl ((Agrees.check _ start).bind
        fun start => agrees_slice text start text.length))
    · exact .item rfl ((Agrees.check _ v).bind fun text => .item rfl ((Agrees.check _ start).bind
        fun start => (Agrees.check _ stop).bind fun stop => agrees_slice text start stop))
  | ref =>
    obtain ⟨v, k, rfl⟩ := exists_of_two hcount
    refine .item rfl ((Agrees.check _ v).bind fun text => .item rfl ((Agrees.check _ k).bind
      fun k => ?_))
    cases text.toList[k]? with
    | some c => exact .pure _
    | none => exact .throw _
  | equal | less => exact agrees_textComparison _ _ _
  | toList =>
    obtain ⟨v, rfl⟩ := exists_of_one hcount
    exact .item rfl ((Agrees.check _ v).bind fun _ => .lift _)
  | ofList =>
    obtain ⟨v, rfl⟩ := exists_of_one hcount
    exact .item rfl ((agrees_list _ v).bind fun items =>
      (Agrees.mapM (fun w => .check _ w) items).bind fun _ => .lift _)
  | integerToChar =>
    obtain ⟨v, rfl⟩ := exists_of_one hcount
    refine .item rfl ((Agrees.check _ v).bind fun n => ?_)
    cases Textual.character? n.toInt with
    | some c => exact .pure _
    | none => exact .throw _

/-! Vectors -/

theorem agrees_make (memory : Nat) (k : Value) (more : List Value)
    (hfits : ∀ n, k = .int n → n.toInt ≤ memory) :
    Agrees (vectorial memory .make (k :: more)) (Vectorial.run .make (k :: more)) := by
  have hrun : Vectorial.run .make (k :: more) = Argument.index "make-vector" k >>= fun n =>
      liftM (Build.vector (Array.replicate n (more.head?.getD (.int 0)))) := rfl
  rw [hrun]
  refine .item rfl (agrees_index_bind fun n hk hn => ?_)
  have hmore : (k :: more)[1]? = more.head? := by
    cases more <;> rfl
  have hle := hfits n hk
  rw [if_neg (by omega), hmore]
  exact .lift _

theorem agrees_vectorial (memory : Nat) (op : Vectorial) (hop : op.writes = false)
    (hcount : op.arity.accepts args.length)
    (hfits : op = .make → ∀ n more, args = .int n :: more → n.toInt ≤ memory) :
    Agrees (vectorial memory op args) (op.run args) := by
  cases op with
  | set | fill => cases hop
  | vector => exact .lift _
  | make =>
    cases args with
    | nil => cases hcount
    | cons k more => exact agrees_make memory k more fun n hn => hfits rfl n more (by rw [hn])
  | ref =>
    obtain ⟨v, k, rfl⟩ := exists_of_two hcount
    refine .item rfl ((Agrees.check _ v).bind fun a => .reading _ (.item rfl
      ((Agrees.check _ k).bind fun k => (Agrees.look _).bind fun items => ?_)))
    cases items[k]? with
    | some w => exact .pure _
    | none => exact .throw _
  | length =>
    obtain ⟨v, rfl⟩ := exists_of_one hcount
    exact .item rfl ((Agrees.check _ v).bind fun _ => (Agrees.reading _ (.look _)).bind
      fun _ => .pure _)
  | toList =>
    obtain ⟨v, rfl⟩ := exists_of_one hcount
    exact .item rfl ((Agrees.check _ v).bind fun _ => (Agrees.reading _ (.look _)).bind
      fun _ => .lift _)
  | ofList =>
    obtain ⟨v, rfl⟩ := exists_of_one hcount
    exact .item rfl ((agrees_list _ v).bind fun _ => .lift _)

end Guarded

end HygienicScheme
