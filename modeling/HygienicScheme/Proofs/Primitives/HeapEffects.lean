import HygienicScheme.Proofs.Discipline.Primitives
import HygienicScheme.Proofs.Store.Growth
import Mathlib.Tactic.SplitIfs

/-!
# What primitives do to the heap

Only `set-car!`, `set-cdr!`, `vector-set!` and `vector-fill!` change what was there before. When one
of them succeeds it writes its last argument into the locations it was told and does nothing else,
and when it fails it does nothing at all. All other primitives only make new cells.

A location is where a value stands that a program can overwrite: a slot of a pair, or an item of a
vector. Values are addresses, so all that have one address read the same location.
-/
namespace HygienicScheme

inductive Location
  | car (a : Address)
  | cdr (a : Address)
  | item (a : Address) (i : Nat)
deriving DecidableEq, Inhabited, Repr

namespace Store

def read? (s : Store) : Location → Option Value
  | .car a => s.pairs[a]?.map Pair.car
  | .cdr a => s.pairs[a]?.map Pair.cdr
  | .item a i => s.vectors[a]?.bind (·[i]?)

/-- The second store has the value in all of these locations, which the first has too, and is the
same everywhere else. -/
structure Overwrites (s : Store) (locations : Location → Prop) (v : Value) (t : Store) : Prop where
  present : ∀ p, locations p → (s.read? p).isSome
  written : ∀ p, locations p → t.read? p = some v
  kept : ∀ p, ¬ locations p → t.read? p = s.read? p
  vectors_size : t.vectors.size = s.vectors.size
  rest : t = { s with pairs := t.pairs, vectors := t.vectors }

theorem eq_of_read? {s t : Store} (hsize : t.vectors.size = s.vectors.size)
    (hrest : t = { s with pairs := t.pairs, vectors := t.vectors })
    (h : ∀ p, t.read? p = s.read? p) : t = s := by
  have hpairs : t.pairs = s.pairs := by
    refine Array.ext_getElem? fun a => ?_
    have hcar := h (.car a)
    have hcdr := h (.cdr a)
    simp only [read?] at hcar hcdr
    cases hs : s.pairs[a]? with
    | none => simpa [hs] using hcar
    | some p =>
      cases ht : t.pairs[a]? with
      | none => simp [hs, ht] at hcar
      | some q =>
        simp only [hs, ht, Option.map_some, Option.some.injEq] at hcar hcdr
        exact congrArg₂ (fun car cdr => some (Pair.mk car cdr)) hcar hcdr
  have hvectors : t.vectors = s.vectors := by
    refine Array.ext hsize fun a hat has => Array.ext_getElem? fun i => ?_
    have hitem := h (.item a i)
    simpa [read?, hat, has] using hitem
  rw [hrest, hpairs, hvectors]

theorem Overwrites.unique {s t u : Store} {locations : Location → Prop} {v : Value}
    (ht : s.Overwrites locations v t) (hu : s.Overwrites locations v u) : t = u := by
  refine eq_of_read? (ht.vectors_size.trans hu.vectors_size.symm) ?_ fun p => ?_
  · rw [ht.rest, hu.rest]
  · by_cases hp : locations p
    · rw [ht.written p hp, hu.written p hp]
    · rw [ht.kept p hp, hu.kept p hp]

theorem overwrites_car {s : Store} {a : Address} (ha : a < s.pairs.size) (v : Value) :
    s.Overwrites (· = .car a) v
      { s with pairs := s.pairs.modify a fun p => { p with car := v } } where
  present := by simp [read?, ha]
  written := by simp [read?, Array.getElem?_modify, ha]
  kept p hp := by
    cases p with
    | car b =>
      have hab : a ≠ b := fun h => hp (by rw [h])
      simp [read?, Array.getElem?_modify, hab]
    | cdr b =>
      simp only [read?, Array.getElem?_modify]
      split <;> simp [Option.map_map, Function.comp_def]
    | item => rfl
  vectors_size := rfl
  rest := rfl

theorem overwrites_cdr {s : Store} {a : Address} (ha : a < s.pairs.size) (v : Value) :
    s.Overwrites (· = .cdr a) v
      { s with pairs := s.pairs.modify a fun p => { p with cdr := v } } where
  present := by simp [read?, ha]
  written := by simp [read?, Array.getElem?_modify, ha]
  kept p hp := by
    cases p with
    | car b =>
      simp only [read?, Array.getElem?_modify]
      split <;> simp [Option.map_map, Function.comp_def]
    | cdr b =>
      have hab : a ≠ b := fun h => hp (by rw [h])
      simp [read?, Array.getElem?_modify, hab]
    | item => rfl
  vectors_size := rfl
  rest := rfl

theorem overwrites_vector {s : Store} {a : Address} {items : Array Value} {v : Value}
    {change : Array Value → Array Value} {locations : Nat → Prop} (ha : s.vectors[a]? = some items)
    (hpresent : ∀ i, locations i → i < items.size)
    (hwritten : ∀ i, locations i → (change items)[i]? = some v)
    (hkept : ∀ i, ¬ locations i → (change items)[i]? = items[i]?) :
    s.Overwrites (fun p => ∃ i, locations i ∧ p = .item a i) v
      { s with vectors := s.vectors.modify a change } where
  present := by
    rintro _ ⟨i, hi, rfl⟩
    simp [read?, ha, hpresent i hi]
  written := by
    rintro _ ⟨i, hi, rfl⟩
    simp [read?, Array.getElem?_modify, ha, hwritten i hi]
  kept p hp := by
    cases p with
    | item b i =>
      by_cases hab : a = b
      · subst hab
        have hi : ¬ locations i := fun hi => hp ⟨i, hi, rfl⟩
        simp [read?, Array.getElem?_modify, ha, hkept i hi]
      · simp [read?, Array.getElem?_modify, hab]
    | _ => rfl
  vectors_size := Array.size_modify
  rest := rfl

/-- The second store has all that the first has, unchanged, and at most new pairs, vectors,
promises and strings besides. -/
structure Builds (s t : Store) : Prop where
  pairs : s.pairs.toList <+: t.pairs.toList
  vectors : s.vectors.toList <+: t.vectors.toList
  promises : s.promises.toList <+: t.promises.toList
  rest : t = { s with pairs := t.pairs, vectors := t.vectors, promises := t.promises,
                      strings := t.strings }

namespace Builds

theorem refl (s : Store) : s.Builds s :=
  ⟨List.prefix_rfl, List.prefix_rfl, List.prefix_rfl, rfl⟩

theorem trans {s t u : Store} (h : s.Builds t) (k : t.Builds u) : s.Builds u where
  pairs := h.pairs.trans k.pairs
  vectors := h.vectors.trans k.vectors
  promises := h.promises.trans k.promises
  rest := by
    rw [k.rest, h.rest]

end Builds

end Store

def building : BuildingDiscipline where
  Holds _ := True
  Data _ _ := True
  Leads := Store.Builds
  refl := .refl
  trans := .trans
  data_leads _ _ := trivial
  constant _ _ _ _ := trivial
  name _ := trivial
  slot _ _ _ := trivial
  cons _ _ _ := ⟨⟨trivial, by simp, List.prefix_rfl, List.prefix_rfl, rfl⟩, trivial⟩
  vector _ _ := ⟨⟨trivial, List.prefix_rfl, by simp, List.prefix_rfl, rfl⟩, trivial⟩
  promise _ _ := ⟨⟨trivial, List.prefix_rfl, List.prefix_rfl, by simp, rfl⟩, trivial⟩
  string _ _ := ⟨trivial, List.prefix_rfl, List.prefix_rfl, List.prefix_rfl, rfl⟩

/-! ### Routines -/

namespace Argument

theorem index_int (procedure : String) (n : Int64) : index procedure (.int n) =
    if n.toInt < 0 then throw (.range (.negativeIndex procedure n)) else pure n.toInt.toNat := rfl

theorem index_of_nonneg (procedure : String) {n : Int64} (hn : ¬ n.toInt < 0) :
    index procedure (.int n) = pure n.toInt.toNat := by
  rw [index_int, if_neg hn]

theorem index_error {procedure : String} {k : Value} (hk : ∀ n, k = .int n → n.toInt < 0)
    (s : Store) : ∃ e, index procedure k s = .error e s := by
  cases k with
  | int n =>
    rw [index_int, if_pos (hk n rfl)]
    exact ⟨_, rfl⟩
  | _ => exact ⟨_, rfl⟩

end Argument

namespace Routine

open HygienicScheme.Action Discipline BuildingDiscipline

/-- The call is told to write the value into these locations of the store. -/
inductive Writes (s : Store) : Routine → List Value → (Location → Prop) → Value → Prop
  | setCar (a : Address) (v : Value) : Writes s (.listing .setCar) [.pair a, v] (· = .car a) v
  | setCdr (a : Address) (v : Value) : Writes s (.listing .setCdr) [.pair a, v] (· = .cdr a) v
  | set {a : Address} {n : Int64} {i : Nat} (hn : n.toInt = i) (hi : i < (s.vectorAt a).size)
      (v : Value) : Writes s (.vectorial .set) [.vector a, .int n, v] (· = .item a i) v
  | fill (a : Address) (v : Value) : Writes s (.vectorial .fill) [.vector a, v]
      (fun p => ∃ i < (s.vectorAt a).size, p = .item a i) v

/-- The call is told to read this location. -/
inductive Reads : Routine → List Value → Location → Prop
  | car (a : Address) : Reads (.listing .car) [.pair a] (.car a)
  | cdr (a : Address) : Reads (.listing .cdr) [.pair a] (.cdr a)
  | ref {a : Address} {n : Int64} {i : Nat} (hn : n.toInt = i) :
      Reads (.vectorial .ref) [.vector a, .int n] (.item a i)

variable {r : Routine} {args : List Value} {s : Store} {v : Value} {locations : Location → Prop}

theorem index_of_toInt {procedure : String} {n : Int64} {i : Nat} (hn : n.toInt = i) :
    Argument.index procedure (.int n) = pure i := by
  rw [Argument.index_of_nonneg _ (by omega), hn, Int.toNat_natCast]

theorem run_vectorRef (v k : Value) : run (.vectorial .ref) [v, k] =
    Argument.vector "vector-ref" v >>= fun a => Argument.index "vector-ref" k >>= fun i =>
      inspect (·.vectorAt a) >>= fun items =>
        match items[i]? with
        | some v => pure v
        | none => throw (.range (.vectorIndex "vector-ref" i items.size)) :=
  rfl

theorem run_of_reads {p : Location} (h : r.Reads args p) (hv : s.read? p = some v) :
    r.run args s = .ok v s := by
  cases h with
  | car a | cdr a =>
    obtain ⟨q, hq, rfl⟩ := Option.map_eq_some_iff.mp hv
    simp [run, Listing.run, Listing.carOf, Listing.cdrOf, Argument.pair, inspect, Store.pairAt,
      Array.getD_eq_getD_getElem?, hq]
  | @ref a n i hn =>
    obtain ⟨items, hitems, hi⟩ := Option.bind_eq_some_iff.mp hv
    have hat : s.vectorAt a = items := by
      simp [Store.vectorAt, Array.getD_eq_getD_getElem?, hitems]
    have hvector : Argument.vector "vector-ref" (.vector a) = pure a := rfl
    rw [run_vectorRef, hvector, index_of_toInt hn, pure_bind, pure_bind, inspect_bind, hat, hi]
    rfl

def FailsOrWrites (r : Routine) (args : List Value) (s : Store) : Prop :=
  (∃ e, r.run args s = .error e s) ∨
    ∃ locations v t, r.run args s = .ok .unspecified t ∧ Writes s r args locations v ∧
      s.Overwrites locations v t

theorem setCar_effect (p v : Value) (hp : s.Located p) :
    FailsOrWrites (.listing .setCar) [p, v] s := by
  cases p with
  | pair a => exact .inr ⟨_, _, _, rfl, .setCar a v, Store.overwrites_car hp v⟩
  | _ => exact .inl ⟨_, rfl⟩

theorem setCdr_effect (p v : Value) (hp : s.Located p) :
    FailsOrWrites (.listing .setCdr) [p, v] s := by
  cases p with
  | pair a => exact .inr ⟨_, _, _, rfl, .setCdr a v, Store.overwrites_cdr hp v⟩
  | _ => exact .inl ⟨_, rfl⟩

theorem getElem?_vectors {a : Address} (ha : s.Located (.vector a)) :
    s.vectors[a]? = some (s.vectorAt a) := by
  have hsize : a < s.vectors.size := ha
  simp [Store.vectorAt, Array.getD_eq_getD_getElem?, hsize]

theorem fill_effect (w v : Value) (hw : s.Located w) :
    FailsOrWrites (.vectorial .fill) [w, v] s := by
  cases w with
  | vector a =>
    have hwrites : s.Overwrites (fun p => ∃ i < (s.vectorAt a).size, p = .item a i) v
        { s with vectors := s.vectors.modify a fun items => items.map fun _ => v } :=
      Store.overwrites_vector (getElem?_vectors hw) (fun _ hi => hi) (fun i hi => by simp [hi])
        (fun i hi => by simp [hi])
    exact .inr ⟨_, _, _, rfl, .fill a v, hwrites⟩
  | _ => exact .inl ⟨_, rfl⟩

theorem run_set (a : Address) (k v : Value) :
    run (.vectorial .set) [.vector a, k, v] =
      Vectorial.heldIndex a k >>= fun i => inspect (fun s => (s.vectorAt a).size) >>= fun size =>
        if i < size then
          Vectorial.change a (fun items => items.setIfInBounds i v) >>= fun _ => pure .unspecified
        else throw (.range (.vectorIndex "vector-set!" i size)) := rfl

theorem heldIndex_error {a : Address} {k : Value} (hk : ∀ n, k ≠ .int n) :
    ∃ e, Vectorial.heldIndex a k s = .error e s := by
  unfold Vectorial.heldIndex
  split
  · exact absurd rfl (hk _)
  · simp only [inspect_bind]
    split
    · exact ⟨_, rfl⟩
    · exact ⟨_, rfl⟩

theorem set_effect (w k v : Value) (hw : s.Located w) :
    FailsOrWrites (.vectorial .set) [w, k, v] s := by
  cases w with
  | vector a =>
    by_cases hk : ∃ n, k = .int n
    · obtain ⟨n, rfl⟩ := hk
      by_cases hn : n.toInt < 0
      · have hneg : ∀ m, Value.int n = .int m → m.toInt < 0 := by
          rintro m ⟨⟩
          exact hn
        obtain ⟨e, he⟩ : ∃ e, Vectorial.heldIndex a (.int n) s = .error e s :=
          Argument.index_error hneg s
        exact .inl ⟨e, by rw [run_set, bind_error he]⟩
      · obtain ⟨i, hi⟩ := Int.eq_ofNat_of_zero_le (Int.not_lt.mp hn)
        have hindex : Vectorial.heldIndex a (.int n) = pure i := index_of_toInt hi
        have hrun := congrFun (run_set a (.int n) v) s
        rw [hindex, pure_bind, inspect_bind] at hrun
        by_cases hsize : i < (s.vectorAt a).size
        · rw [if_pos hsize] at hrun
          have hwrites : s.Overwrites (fun p => ∃ j, j = i ∧ p = .item a j) v
              { s with vectors := s.vectors.modify a fun items => items.setIfInBounds i v } :=
            Store.overwrites_vector (getElem?_vectors hw) (fun _ hj => hj ▸ hsize)
              (fun j hj => by simp [hj, hsize]) (fun j hj => by simp [Ne.symm hj])
          simp only [exists_eq_left] at hwrites
          exact .inr ⟨_, _, _, hrun, .set hi hsize v, hwrites⟩
        · rw [if_neg hsize] at hrun
          exact .inl ⟨_, hrun⟩
    · obtain ⟨e, he⟩ := heldIndex_error (s := s) (a := a) fun n h => hk ⟨n, h⟩
      exact .inl ⟨e, by rw [run_set, bind_error he]⟩
  | _ => exact .inl ⟨_, rfl⟩

theorem failsOrWrites (hr : r.writes = true) (hcount : r.arity.accepts args.length)
    (hargs : ∀ v ∈ args, s.Located v) : FailsOrWrites r args s := by
  have two (h : args.length = 2) (heffect : ∀ w v, s.Located w → FailsOrWrites r [w, v] s) :
      FailsOrWrites r args s := by
    obtain ⟨w, v, rfl⟩ := List.length_eq_two.mp h
    exact heffect w v (hargs w (by simp))
  cases r with
  | listing op =>
    cases op with
    | setCar =>
      exact two (by simpa [arity, Listing.arity, Arity.accepts] using hcount) setCar_effect
    | setCdr =>
      exact two (by simpa [arity, Listing.arity, Arity.accepts] using hcount) setCdr_effect
    | _ => cases hr
  | vectorial op =>
    cases op with
    | set =>
      have hthree : args.length = 3 := by simpa [arity, Vectorial.arity, Arity.accepts] using hcount
      obtain ⟨w, k, v, rfl⟩ := List.length_eq_three.mp hthree
      exact set_effect w k v (hargs w (by simp))
    | fill => exact two (by simpa [arity, Vectorial.arity, Arity.accepts] using hcount) fill_effect
    | _ => cases hr
  | _ => cases hr

/-- The effect of a primitive on the heap. One that does not write leaves every cell and every frame
as it was, whether it succeeds or fails. One that writes leaves everything as it was if it fails;
otherwise it has put a value into the locations it was told, and everybody who reads one of them
gets that value, while everything else is as it was. -/
theorem heap_effect (r : Routine) (args : List Value) (s : Store)
    (hcount : r.arity.accepts args.length) (hargs : ∀ v ∈ args, s.Located v) :
    (r.writes = false → s.Builds (after (r.run args s))) ∧
      (r.writes = true →
        (∃ e, r.run args s = .error e s) ∨
          ∃ locations v t, r.run args s = .ok .unspecified t ∧ Writes s r args locations v ∧
            s.Overwrites locations v t ∧
              ∀ (reader : Routine) arguments p, reader.Reads arguments p → locations p →
                reader.run arguments t = .ok v t) := by
  constructor
  · intro hr
    have hkeeps : building.Keeps (r.run args) s building.Data :=
      keeps_builder trivial hr fun _ _ => trivial
    exact hkeeps.1.2
  · intro hr
    rcases failsOrWrites hr hcount hargs with hfails | ⟨locations, v, t, hrun, hwrites, hover⟩
    · exact .inl hfails
    · refine .inr ⟨locations, v, t, hrun, hwrites, hover, fun reader arguments p hreads hp => ?_⟩
      exact run_of_reads hreads (hover.written p hp)

def onePair : Store := { Store.empty with pairs := #[⟨.null, .null⟩] }

theorem heap_effect_each :
    onePair.Builds (after (run (.listing .cons) [.pair 0, .pair 0] onePair)) ∧
      ∃ locations v t, run (.listing .setCar) [.pair 0, .int 1] onePair = .ok .unspecified t ∧
        Writes onePair (.listing .setCar) [.pair 0, .int 1] locations v ∧
          onePair.Overwrites locations v t ∧
            ∀ (reader : Routine) arguments p, reader.Reads arguments p → locations p →
              reader.run arguments t = .ok v t := by
  have hlocated : onePair.Located (.pair 0) := Nat.zero_lt_one
  refine ⟨(heap_effect _ _ _ rfl (by simp [hlocated])).1 rfl, ?_⟩
  rcases (heap_effect (.listing .setCar) [.pair 0, .int 1] onePair rfl
    (by simpa [Store.Located] using hlocated)).2 rfl with ⟨e, herror⟩ | hwritten
  · cases herror
  · exact hwritten

example : (all.filter writes).map name = ["set-car!", "set-cdr!", "vector-set!", "vector-fill!"] :=
  rfl

end Routine

end HygienicScheme
