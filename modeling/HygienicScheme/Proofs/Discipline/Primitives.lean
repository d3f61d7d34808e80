import HygienicScheme.Environment
import HygienicScheme.Primitive.Routine
import HygienicScheme.Proofs.Discipline.Basic

/-!
# Primitives keep every discipline

What a primitive gives back is a constant, a part of its arguments, or a new cell with such parts,
and what it writes into a cell is an argument. So primitives keep every discipline that allows for
what they and the evaluator change.
-/
namespace HygienicScheme

def Promise.content : Promise → Value
  | .delayed thunk => thunk
  | .forced v => v

structure BuildingDiscipline extends Discipline where
  promise : ∀ {s v}, Holds s → Data s v →
    let t := { s with promises := s.promises.push (.delayed v) }
    (Holds t ∧ Leads s t) ∧ Data t (.promise s.promises.size)
  /-- The identities of strings are of no account. -/
  string : ∀ {s} n, Holds s →
    let t := { s with strings := n }
    Holds t ∧ Leads s t

structure PrimitiveDiscipline extends BuildingDiscipline where
  setPair : ∀ {s a change}, Holds s → Data s (.pair a) → Data s (change (s.pairAt a)).car →
    Data s (change (s.pairAt a)).cdr →
    let t := { s with pairs := s.pairs.modify a change }
    Holds t ∧ Leads s t
  setVector : ∀ {s a change}, Holds s → Data s (.vector a) →
    (∀ v ∈ (change (s.vectorAt a)).toList, Data s v) →
    let t := { s with vectors := s.vectors.modify a change }
    Holds t ∧ Leads s t
  /-- Written text is of no account. -/
  emit : ∀ {s} output, Holds s →
    let t := { s with output := output }
    Holds t ∧ Leads s t

structure EvaluationDiscipline extends PrimitiveDiscipline where
  /-- The identifiers that a program may look up, define and assign to. -/
  Variable : Symbol → Prop := fun _ => True
  variable_unstamped : ∀ x : Symbol, Variable x.unstamped := by exact fun _ => trivial
  bound : ∀ {s f b}, Holds s → Variable b.1 → b ∈ (s.frameAt f).bindings → Data s b.2
  promised : ∀ {s} a, Holds s → Data s (s.promiseAt a).content
  child : ∀ {s bindings} env, Holds s → Scope env → (∀ b ∈ bindings, Data s b.2) →
    let t := { s with frames := s.frames.push ⟨bindings, []⟩ }
    (Holds t ∧ Leads s t) ∧ Scope ⟨s.frames.size, env.chain⟩
  bind : ∀ {s v} f x, Variable x → Holds s → Data s v →
    Holds (s.bind f x v) ∧ Leads s (s.bind f x v)
  exit : ∀ {s}, Holds s →
    let t := { s with exits := s.exits + 1 }
    (Holds t ∧ Leads s t) ∧ Data t (.escape (s.exits + 1))

def Listing.writes : Listing → Bool
  | .setCar | .setCdr => true
  | _ => false

def Vectorial.writes : Vectorial → Bool
  | .set | .fill => true
  | _ => false

/-- The primitives that write into a cell they are given. All others at most make new cells. -/
def Routine.writes : Routine → Bool
  | .listing op => op.writes
  | .vectorial op => op.writes
  | _ => false

namespace BuildingDiscipline

open Discipline

variable {D : BuildingDiscipline} {s : Store} {v : Value} {args : List Value} {α : Type}
  {Q : Store → α → Prop}

abbrev Anything : Store → α → Prop := fun _ _ => True

theorem keeps_reject (hs : D.Holds s) (procedure expected : String) (v : Value) :
    D.Keeps (Argument.reject procedure expected v) s Q := .throw hs

theorem keeps_miscounted (hs : D.Holds s) (procedure : String) (arity : Arity)
    (args : List Value) : D.Keeps (Argument.miscounted procedure arity args) s Q := .throw hs

theorem keeps_string (hs : D.Holds s) (text : String) :
    D.Keeps (liftM (Build.string text)) s D.Data :=
  .lift (D.string (s.strings + 1) hs) (D.constant rfl nofun nofun nofun)

section Arguments

variable (hs : D.Holds s)

include hs

theorem keeps_int (procedure : String) (v : Value) :
    D.Keeps (Argument.int procedure v) s Anything := by
  cases v <;> first | exact .pure hs trivial | exact keeps_reject hs _ _ _

theorem keeps_index (procedure : String) (v : Value) :
    D.Keeps (Argument.index procedure v) s Anything := by
  refine (keeps_int hs procedure v).bind fun n _ ht _ _ => ?_
  split
  · exact .throw ht
  · exact .pure ht trivial

theorem keeps_text (procedure : String) (v : Value) :
    D.Keeps (Argument.string procedure v) s Anything := by
  cases v <;> first | exact .pure hs trivial | exact keeps_reject hs _ _ _

theorem keeps_char (procedure : String) (v : Value) :
    D.Keeps (Argument.char procedure v) s Anything := by
  cases v <;> first | exact .pure hs trivial | exact keeps_reject hs _ _ _

theorem keeps_pairArgument (procedure : String) (hv : D.Data s v) :
    D.Keeps (Argument.pair procedure v) s fun t a => D.Data t (.pair a) := by
  cases v with
  | pair a => exact .pure hs hv
  | _ => exact keeps_reject hs _ _ _

theorem keeps_vectorArgument (procedure : String) (hv : D.Data s v) :
    D.Keeps (Argument.vector procedure v) s fun t a => D.Data t (.vector a) := by
  cases v with
  | vector a => exact .pure hs hv
  | _ => exact keeps_reject hs _ _ _

theorem keeps_listArgument (procedure : String) (hv : D.Data s v) :
    D.Keeps (Argument.list procedure v) s fun t items => ∀ w ∈ items, D.Data t w := by
  refine .inspect_bind ?_
  cases hlist : s.properList? v with
  | some items => exact .pure hs (D.properList hs hv hlist)
  | none => exact keeps_reject hs _ _ _

theorem keeps_number (procedure : String) (v : Value) :
    D.Keeps (Number.ofValue procedure v) s Anything := by
  cases v <;> first | exact .pure hs trivial | exact keeps_reject hs _ _ _

end Arguments

theorem number (n : Number) : D.Data s n.toValue := by
  cases n <;> exact D.constant rfl nofun nofun nofun

section Numbers

variable (hs : D.Holds s)

include hs

theorem keeps_accumulate (procedure : String) (step : Number → Number → Except Error Number)
    (start : Number) (args : List Value) :
    D.Keeps (Numeric.accumulate procedure step start args) s D.Data := by
  refine Keeps.bind (Q := Anything) (.foldlM hs trivial fun v _ t n ht _ _ => ?_) fun n t ht _ _ =>
    .pure ht (D.number n)
  exact (keeps_number ht procedure v).bind fun _ u hu _ _ => .except hu fun _ _ => trivial

theorem keeps_unary (procedure : String) (f : Number → Except Error Number) (v : Value) :
    D.Keeps (Numeric.unary procedure f v) s D.Data :=
  (keeps_number hs procedure v).bind fun _ _ ht _ _ =>
    Keeps.bind (Q := Anything) (.except ht fun _ _ => trivial) fun r _ hu _ _ =>
      .pure hu (D.number r)

theorem keeps_integers (procedure : String) (f : Int64 → Int64 → Except Error Number)
    (a b : Value) : D.Keeps (Numeric.integers procedure f a b) s D.Data :=
  (keeps_int hs procedure a).bind fun _ _ ht _ _ => (keeps_int ht procedure b).bind
    fun _ _ hu _ _ => Keeps.bind (Q := Anything) (.except hu fun _ _ => trivial)
      fun r _ hr _ _ => .pure hr (D.number r)

theorem keeps_numbers (procedure : String) (vs : List Value) :
    D.Keeps (vs.mapM (Number.ofValue procedure)) s fun _ ns => ∀ n ∈ ns, True :=
  .mapM hs (fun _ _ => trivial) fun v _ _ ht _ => keeps_number ht procedure v

theorem keeps_extremum (procedure : String) (keeps : Float → Float → Bool) (first : Value)
    (more : List Value) : D.Keeps (Numeric.extremum procedure keeps first more) s D.Data :=
  (keeps_number hs procedure first).bind fun _ _ ht _ _ =>
    (keeps_numbers ht procedure more).bind fun _ _ hu _ _ => .pure hu (D.number _)

theorem keeps_comparison (procedure : String) (ints : Int → Int → Bool)
    (floats : Float → Float → Bool) (args : List Value) :
    D.Keeps (Numeric.comparison procedure ints floats args) s D.Data :=
  (keeps_numbers hs procedure args).bind fun _ _ ht _ _ => .pure ht (D.bool _)

theorem keeps_test (procedure : String) (ints : Int → Bool) (floats : Float → Bool) (v : Value) :
    D.Keeps (Numeric.test procedure ints floats v) s D.Data :=
  (keeps_number hs procedure v).bind fun n _ ht _ _ => by
    cases n <;> exact .pure ht (D.bool _)

theorem keeps_parity (procedure : String) (rest : Int) (v : Value) :
    D.Keeps (Numeric.parity procedure rest v) s D.Data :=
  (keeps_int hs procedure v).bind fun _ _ ht _ _ => .pure ht (D.bool _)

theorem keeps_numeric (op : Numeric) (args : List Value) : D.Keeps (op.run args) s D.Data := by
  unfold Numeric.run
  split
  -- Most operations are one of these shapes.
  all_goals first
    | exact keeps_accumulate hs _ _ _ _
    | exact keeps_unary hs _ _ _
    | exact keeps_integers hs _ _ _ _
    | exact keeps_extremum hs _ _ _ _
    | exact keeps_comparison hs _ _ _ _
    | exact keeps_test hs _ _ _ _
    | exact keeps_parity hs _ _ _
    | exact keeps_miscounted hs _ _ _
    | exact (keeps_number hs _ _).bind fun _ _ ht _ _ => keeps_accumulate ht _ _ _ _
    | skip
  · exact (keeps_number hs _ _).bind fun _ _ ht _ _ => (keeps_number ht _ _).bind fun _ _ hu _ _ =>
      Keeps.bind (Q := Anything) (.except hu fun _ _ => trivial) fun r _ hr _ _ =>
        .pure hr (D.number r)
  · exact (keeps_number hs _ _).bind fun _ _ ht _ _ => .inspect_bind (keeps_string ht _)
  · refine (keeps_text hs _ _).bind fun text _ ht _ _ => ?_
    cases Number.ofText? text with
    | none => exact .pure ht (D.bool false)
    | some n => exact .pure ht (D.number n)
  · exact .pure hs (D.bool _)
  · rename_i v
    cases v <;> exact .pure hs (D.bool _)

end Numbers

section Texts

variable (hs : D.Holds s)

include hs

theorem keeps_texts (procedure : String) (vs : List Value) :
    D.Keeps (vs.mapM (Argument.string procedure)) s fun _ texts => ∀ text ∈ texts, True :=
  .mapM hs (fun _ _ => trivial) fun v _ _ ht _ => keeps_text ht procedure v

theorem keeps_textComparison (procedure : String) (holds : String → String → Bool)
    (args : List Value) : D.Keeps (Textual.comparison procedure holds args) s D.Data :=
  (keeps_texts hs procedure args).bind fun _ _ ht _ _ => .pure ht (D.bool _)

theorem keeps_textual (op : Textual) (hargs : ∀ v ∈ args, D.Data s v) :
    D.Keeps (op.run args) s D.Data := by
  unfold Textual.run
  split
  all_goals first
    | exact keeps_textComparison hs _ _ _
    | exact keeps_miscounted hs _ _ _
    | exact keeps_reject hs _ _ _
    | skip
  · exact keeps_string hs _
  · exact (keeps_text hs _ _).bind fun text _ ht _ _ => .pure ht (D.name text)
  · exact (keeps_text hs _ _).bind fun _ _ ht _ _ => .pure ht (D.int _)
  · exact (keeps_texts hs _ _).bind fun _ _ ht _ _ => keeps_string ht _
  · refine (keeps_text hs _ _).bind fun text _ ht _ _ => (keeps_index ht _ _).bind
      fun start _ hu _ _ => ?_
    have hslice : ∀ stop t, D.Holds t → D.Keeps
        (liftM (Textual.slice text.toList start stop) >>= fun part => liftM (Build.string part)) t
        D.Data := fun _ _ ht =>
      Keeps.bind (Q := Anything) (.except ht fun _ _ => trivial) fun _ _ hu _ _ => keeps_string hu _
    dsimp only
    split
    · exact hslice _ _ hu
    · exact (keeps_index hu _ _).bind fun _ _ hw _ _ => hslice _ _ hw
  · refine (keeps_text hs _ _).bind fun text _ ht _ _ => (keeps_index ht _ _).bind
      fun k _ hu _ _ => ?_
    split
    · exact .pure hu (D.char _)
    · exact .throw hu
  · refine (keeps_text hs _ _).bind fun text _ ht _ _ => keeps_list ht fun v hv => ?_
    obtain ⟨c, -, rfl⟩ := List.mem_map.mp hv
    exact D.char c
  · rename_i v
    exact (keeps_listArgument hs _ (hargs v (by simp))).bind fun items _ ht _ _ =>
      Keeps.bind (.mapM (R := Anything) ht (fun _ _ => trivial) fun v _ _ hu _ => keeps_char hu _ v)
        fun _ _ hu _ _ => keeps_string hu _
  · exact (keeps_char hs _ _).bind fun _ _ ht _ _ => .pure ht (D.int _)
  · refine (keeps_int hs _ _).bind fun n _ ht _ _ => ?_
    split
    · exact .pure ht (D.char _)
    · exact .throw ht

end Texts

section Lists

variable (hs : D.Holds s)

include hs

theorem keeps_carOf (procedure : String) (hv : D.Data s v) :
    D.Keeps (Listing.carOf procedure v) s D.Data :=
  (keeps_pairArgument hs procedure hv).bind fun _ _ ht _ ha => .inspect ht (D.car ht ha)

theorem keeps_cdrOf (procedure : String) (hv : D.Data s v) :
    D.Keeps (Listing.cdrOf procedure v) s D.Data :=
  (keeps_pairArgument hs procedure hv).bind fun _ _ ht _ ha => .inspect ht (D.cdr ht ha)

theorem keeps_path {steps : List (Value → Action Value)}
    (hsteps : ∀ step ∈ steps, (∃ procedure, step = Listing.carOf procedure) ∨
      ∃ procedure, step = Listing.cdrOf procedure)
    (hv : D.Data s v) : D.Keeps (Listing.path steps v) s D.Data :=
  .foldlM hs hv fun step hstep t v ht _ hv => by
    rcases hsteps step hstep with ⟨procedure, rfl⟩ | ⟨procedure, rfl⟩
    · exact keeps_carOf ht procedure hv
    · exact keeps_cdrOf ht procedure hv

theorem keeps_appendItems {vs : List Value} (hvs : ∀ v ∈ vs, D.Data s v) :
    D.Keeps (Listing.appendItems vs) s fun t items => ∀ v ∈ items, D.Data t v := by
  induction vs generalizing s with
  | nil => exact .pure hs (by simp)
  | cons v more ih =>
    obtain ⟨hv, hmore⟩ := List.forall_mem_cons.mp hvs
    refine (keeps_listArgument hs "append" hv).bind fun items t ht hst hitems => ?_
    refine (ih ht (D.all_leads hst hmore)).bind fun rest u hu htu hrest => .pure hu ?_
    simpa [or_imp, forall_and] using ⟨D.all_leads htu hitems, hrest⟩

theorem tail?_data {n : Nat} {w : Value} (hv : D.Data s v) (h : Listing.tail? s n v = some w) :
    D.Data s w := by
  induction n generalizing v with
  | zero =>
    cases h
    exact hv
  | succ n ih =>
    cases v with
    | pair a => exact ih (D.cdr hs hv) h
    | _ => cases h

theorem keeps_tailOf (hv : D.Data s v) (count : Nat) :
    D.Keeps (Listing.tailOf v count) s D.Data := by
  refine .inspect_bind ?_
  cases htail : Listing.tail? s count v with
  | some w => exact .pure hs (tail?_data hs hv htail)
  | none => exact .throw hs

theorem keeps_matching (same : Listing.Equivalence) (a b : Value) :
    D.Keeps (Listing.matching same a b) s Anything :=
  .inspect_bind (.ended hs fun _ _ => trivial)

theorem keeps_findTail (procedure : String) (same : Listing.Equivalence) (v : Value) (n : Nat)
    {rest : Value} (hrest : D.Data s rest) :
    D.Keeps (Listing.findTail procedure same v n rest) s D.Data := by
  induction n generalizing s rest with
  | zero => exact .throw hs
  | succ n ih =>
    unfold Listing.findTail
    cases rest with
    | pair a =>
      refine .inspect_bind ((keeps_matching hs same v _).bind fun found t ht hst _ => ?_)
      cases found with
      | true => exact .pure ht (D.data_leads hst hrest)
      | false => exact ih ht (D.data_leads hst (D.cdr hs hrest))
    | null => exact .pure hs (D.bool false)
    | _ => exact keeps_reject hs _ _ _

theorem keeps_findEntry (procedure : String) (same : Listing.Equivalence) (v : Value)
    {entries : List Value} (hentries : ∀ w ∈ entries, D.Data s w) :
    D.Keeps (Listing.findEntry procedure same v entries) s D.Data := by
  induction entries generalizing s with
  | nil => exact .pure hs (D.bool false)
  | cons entry more ih =>
    obtain ⟨hentry, hmore⟩ := List.forall_mem_cons.mp hentries
    refine (keeps_carOf hs procedure hentry).bind fun key t ht hst _ => ?_
    refine (keeps_matching ht same v key).bind fun found u hu htu _ => ?_
    have hsu := D.trans hst htu
    cases found with
    | true => exact .pure hu (D.data_leads hsu hentry)
    | false => exact ih hu (D.all_leads hsu hmore)

theorem keeps_memberBy (procedure : String) (same : Listing.Equivalence) (v : Value) {items : Value}
    (hitems : D.Data s items) : D.Keeps (Listing.memberBy procedure same v items) s D.Data :=
  .inspect_bind (keeps_findTail hs procedure same v _ hitems)

theorem keeps_assocBy (procedure : String) (same : Listing.Equivalence) (v : Value)
    {entries : Value} (hentries : D.Data s entries) :
    D.Keeps (Listing.assocBy procedure same v entries) s D.Data :=
  (keeps_listArgument hs procedure hentries).bind fun _ _ ht _ h => keeps_findEntry ht _ _ _ h

theorem keeps_listing {op : Listing} (hop : op.writes = false) (hargs : ∀ v ∈ args, D.Data s v) :
    D.Keeps (op.run args) s D.Data := by
  unfold Listing.run
  split
  all_goals try simp only [List.forall_mem_cons] at hargs
  all_goals first
    | cases hop; done
    | exact keeps_carOf hs _ hargs.1
    | exact keeps_cdrOf hs _ hargs.1
    | exact keeps_memberBy hs _ _ _ hargs.2.1
    | exact keeps_assocBy hs _ _ _ hargs.2.1
    | exact keeps_path hs (by simp) hargs.1
    | exact .pure hs (D.bool _)
    | exact keeps_miscounted hs _ _ _
    | skip
  · exact keeps_cons hs hargs.1 hargs.2.1
  · exact keeps_list hs hargs
  · exact (keeps_listArgument hs _ hargs.1).bind fun _ _ ht _ _ => .pure ht (D.int _)
  · cases hlast : args.getLast? with
    | none => exact .pure hs D.null
    | some last =>
      have hlast' := hargs last (List.mem_of_getLast? hlast)
      refine (keeps_appendItems hs fun v hv => hargs v (List.dropLast_subset _ hv)).bind ?_
      exact fun items t ht hst hitems => keeps_listWithTail ht hitems (D.data_leads hst hlast')
  · exact (keeps_listArgument hs _ hargs.1).bind fun items t ht hst hitems =>
      keeps_list ht (by simpa using hitems)
  · exact (keeps_index hs _ _).bind fun k t ht hst _ => keeps_tailOf ht (D.data_leads hst hargs.1) k
  · refine (keeps_index hs _ _).bind fun k t ht hst _ => ?_
    refine (keeps_tailOf ht (D.data_leads hst hargs.1) k).bind fun v u hu htu hv => ?_
    refine .inspect_bind ?_
    cases v with
    | pair a => exact .pure hu (D.car hu hv)
    | _ => exact .throw hu

end Lists

section Vectors

variable (hs : D.Holds s)

include hs

theorem keeps_vectorial {op : Vectorial} (hop : op.writes = false)
    (hargs : ∀ v ∈ args, D.Data s v) : D.Keeps (op.run args) s D.Data := by
  unfold Vectorial.run
  split
  all_goals try simp only [List.forall_mem_cons] at hargs
  all_goals try (cases hop; done)
  · exact keeps_vector hs (by simpa using hargs)
  · rename_i k more
    refine (keeps_index hs _ _).bind fun n t ht hst _ => keeps_vector ht fun v hv => ?_
    rw [Array.toList_replicate] at hv
    rw [List.eq_of_mem_replicate hv]
    cases more with
    | nil => exact D.int 0
    | cons x _ => exact D.data_leads hst (hargs.2 x (by simp))
  · refine (keeps_vectorArgument hs _ hargs.1).bind fun a t ht _ ha => (keeps_index ht _ _).bind
      fun k u hu htu _ => .inspect_bind ?_
    split
    · rename_i v hv
      exact .pure hu (D.item hu (D.data_leads htu ha) v (Array.mem_toList_iff.mpr
        (Array.mem_of_getElem? hv)))
    · exact .throw hu
  · exact (keeps_vectorArgument hs _ hargs.1).bind fun _ _ ht _ _ =>
      .inspect_bind (.pure ht (D.int _))
  · exact (keeps_vectorArgument hs _ hargs.1).bind fun _ _ ht _ ha =>
      .inspect_bind (keeps_list ht (D.item ht ha))
  · exact (keeps_listArgument hs _ hargs.1).bind fun _ _ ht _ hitems =>
      keeps_vector ht (by simpa using hitems)
  · exact keeps_miscounted hs _ _ _

end Vectors

theorem keeps_predicate (hs : D.Holds s) (op : Predicate) (args : List Value) :
    D.Keeps (op.run args) s D.Data := by
  unfold Predicate.run
  split
  all_goals first
    | exact .pure hs (D.bool _)
    | exact keeps_miscounted hs _ _ _
    | skip
  exact (keeps_matching hs _ _ _).bind fun _ _ ht _ _ => .pure ht (D.bool _)

theorem keeps_messagePart (hs : D.Holds s) (v : Value) :
    D.Keeps (Routine.messagePart v) s Anything := by
  cases v <;> exact .pure hs trivial

theorem keeps_builder (hs : D.Holds s) {r : Routine} (hr : r.writes = false)
    (hargs : ∀ v ∈ args, D.Data s v) : D.Keeps (r.run args) s D.Data := by
  unfold Routine.run
  split
  · exact keeps_numeric hs _ args
  · exact keeps_listing hs hr hargs
  · exact keeps_predicate hs _ args
  · exact keeps_textual hs _ hargs
  · exact keeps_vectorial hs hr hargs
  · split
    · exact .lift (D.promise hs (hargs _ (by simp))).1 (D.promise hs (hargs _ (by simp))).2
    · exact keeps_reject hs _ _ _
  · exact Keeps.bind (.mapM (R := Anything) hs (fun _ _ => trivial) fun v _ _ ht _ =>
      keeps_messagePart ht v) fun _ _ ht _ _ => .throw ht
  · exact keeps_miscounted hs _ _ _

end BuildingDiscipline

namespace PrimitiveDiscipline

open Discipline BuildingDiscipline

variable {D : PrimitiveDiscipline} {s : Store} {v : Value} {args : List Value}

section Writing

variable (hs : D.Holds s)

include hs

theorem keeps_setPair (procedure : String) {p x : Value} {change : Pair → Pair}
    (hp : D.Data s p) (hx : D.Data s x)
    (hchange : ∀ pair, (change pair).car = x ∧ (change pair).cdr = pair.cdr ∨
      (change pair).car = pair.car ∧ (change pair).cdr = x) :
    D.Keeps (do Listing.setPair change (← Argument.pair procedure p); return .unspecified) s
      D.Data := by
  cases p with
  | pair a =>
    have hset : D.Data s (change (s.pairAt a)).car ∧ D.Data s (change (s.pairAt a)).cdr := by
      rcases hchange (s.pairAt a) with ⟨hcar, hcdr⟩ | ⟨hcar, hcdr⟩ <;> rw [hcar, hcdr]
      · exact ⟨hx, D.cdr hs hp⟩
      · exact ⟨D.car hs hp, hx⟩
    exact (Keeps.change (Q := Anything) (D.setPair hs hp hset.1 hset.2) trivial).bind
      fun _ _ ht _ _ => .pure ht D.unspecified
  | _ => exact keeps_reject hs _ _ _

theorem keeps_heldIndex (a : Address) (k : Value) :
    D.Keeps (Vectorial.heldIndex a k) s Anything := by
  unfold Vectorial.heldIndex
  split
  · exact keeps_index hs _ _
  · refine .inspect_bind ?_
    split
    · exact .throw hs
    · exact .throw hs

theorem keeps_vectorChange {a : Address} {change : Array Value → Array Value}
    (ha : D.Data s (.vector a)) (hchange : ∀ v ∈ (change (s.vectorAt a)).toList, D.Data s v) :
    D.Keeps (do Vectorial.change a change; return .unspecified) s D.Data :=
  (Keeps.change (Q := Anything) (D.setVector hs ha hchange) trivial).bind fun _ _ ht _ _ =>
    .pure ht D.unspecified

theorem keeps_writer {r : Routine} (hr : r.writes = true) (hargs : ∀ v ∈ args, D.Data s v) :
    D.Keeps (r.run args) s D.Data := by
  cases r with
  | listing op =>
    unfold Routine.run Listing.run
    dsimp only
    split
    all_goals try simp only [List.forall_mem_cons] at hargs
    all_goals first
      | cases hr; done
      | exact keeps_miscounted hs _ _ _
      | skip
    · exact keeps_setPair hs _ hargs.1 hargs.2.1 fun _ => .inl ⟨rfl, rfl⟩
    · exact keeps_setPair hs _ hargs.1 hargs.2.1 fun _ => .inr ⟨rfl, rfl⟩
  | vectorial op =>
    unfold Routine.run Vectorial.run
    dsimp only
    split
    all_goals try simp only [List.forall_mem_cons] at hargs
    all_goals first
      | cases hr; done
      | exact keeps_miscounted hs _ _ _
      | skip
    · refine (keeps_vectorArgument hs _ hargs.1).bind fun a t ht hst ha =>
        (keeps_heldIndex ht a _).bind fun k u hu htu _ => .inspect_bind ?_
      have ha' := D.data_leads htu ha
      split
      · refine keeps_vectorChange hu ha' fun v hv => ?_
        rw [Array.toList_setIfInBounds] at hv
        rcases List.mem_or_eq_of_mem_set hv with hv | rfl
        · exact D.item hu ha' v hv
        · exact D.data_leads (D.trans hst htu) hargs.2.2.1
      · exact .throw hu
    · refine (keeps_vectorArgument hs _ hargs.1).bind fun a t ht hst ha =>
        keeps_vectorChange ht ha fun v hv => ?_
      rw [Array.toList_map] at hv
      obtain ⟨_, -, rfl⟩ := List.mem_map.mp hv
      exact D.data_leads hst hargs.2.1
  | _ => cases hr

theorem keeps_routine (r : Routine) (hargs : ∀ v ∈ args, D.Data s v) :
    D.Keeps (r.run args) s D.Data := by
  cases hr : r.writes with
  | false => exact keeps_builder hs hr hargs
  | true => exact keeps_writer hs hr hargs

end Writing

end PrimitiveDiscipline

end HygienicScheme
