import HygienicScheme.Proofs.Printing.Floats

/-!
# Reading printed doubles

The reader tells doubles from integers by their characters alone. A finite double is printed with a
point unless it is a whole number from 10 ^ 16 on; with the point it is read as a double, alone and
inside other data, and without it as an integer or as none at all.
-/
namespace HygienicScheme

namespace Decimal

variable {cs : List Char}

theorem Pointed.isLiteral (h : Pointed cs) : IsLiteral cs := by
  obtain ⟨sg, ds, ps, hs, hd, hne, hps, -, rfl⟩ := h
  exact ⟨sg, ds ++ '.' :: ps, [], hs, .fraction hd hps (.inl hne), .nil, by rw [List.append_nil]⟩

theorem Pointed.mem (h : Pointed cs) : '.' ∈ cs := by
  obtain ⟨sg, ds, ps, -, -, -, -, -, rfl⟩ := h
  simp

theorem IsWhole.not_marked {c : Char} (h : IsWhole cs) (hc : c ∈ cs) :
    ¬ (c = '.' ∨ c = 'e' ∨ c = 'E') := by
  obtain ⟨sg, ds, hs, hd, -, rfl⟩ := h
  obtain hc | hc := List.mem_append.mp hc
  · obtain rfl | rfl | rfl := hs
    · cases hc
    · obtain rfl := List.mem_singleton.mp hc
      decide
    · obtain rfl := List.mem_singleton.mp hc
      decide
  · have hdigit := hd c hc
    rintro (rfl | rfl | rfl) <;> exact absurd hdigit (by decide)

theorem Pointed.not_isWhole (h : Pointed cs) : ¬ IsWhole cs :=
  fun hw => hw.not_marked h.mem (.inl rfl)

end Decimal

namespace Datum

open Decimal

/-- Readable data and doubles that are printed with a point, in pairs and vectors. -/
inductive Pointed : Datum → Prop
  | readable {d : Datum} (h : Readable d) : Pointed d
  | float {x : Float} (hfinite : x.isFinite) (hx : ¬ Great x) : Pointed (float x)
  | pair {car cdr : Datum} (hcar : Pointed car) (hcdr : Pointed cdr) : Pointed (pair car cdr)
  | vector {items : List Datum} (h : ∀ d ∈ items, Pointed d) : Pointed (vector items)

/-- The datum with zero in the place of every double. -/
def rough : Datum → Datum
  | float _ => float 0
  | pair car cdr => pair car.rough cdr.rough
  | vector items => vector (items.map rough)
  | d => d

end Datum

namespace Reader

open Decimal Number

variable {x : Float} {d d' : Datum}

/-- How the text of a finite double is read. -/
structure ReadsFloat (x : Float) : Prop where
  marked_iff : (∃ c ∈ (written x).toList, c = '.' ∨ c = 'e' ∨ c = 'E') ↔ ¬ Great x
  double : ¬ Great x → ∃ y, Makes (written x).toList (.ok (.float y))
  inside : Great x → Fits (wholeValue (written x).toList) →
    ∃ n : Int64, n.toInt = wholeValue (written x).toList ∧ Makes (written x).toList (.ok (.int n))
  outside : Great x → ¬ Fits (wholeValue (written x).toList) →
    Makes (written x).toList (.error .integerRange)

theorem makes_pointed {cs : List Char} (h : Pointed cs) : ∃ y, Makes cs (.ok (.float y)) := by
  obtain ⟨l, -, hmakes⟩ := makes_double h.not_isWhole h.isLiteral
  exact ⟨l.toFloat, hmakes⟩

theorem readsFloat (hx : x.isFinite) : ReadsFloat x where
  marked_iff := by
    constructor
    · rintro ⟨c, hc, hmark⟩ hgreat
      exact (written_whole hgreat).not_marked hc hmark
    · exact fun hgreat => ⟨'.', (written_pointed hx hgreat).mem, .inl rfl⟩
  double hgreat := makes_pointed (written_pointed hx hgreat)
  inside hgreat hfits := by
    have hn := toInt_ofInt hfits
    exact ⟨_, hn, makes_inside (written_whole hgreat) hn⟩
  outside hgreat hfits := makes_outside (written_whole hgreat) hfits

theorem readsAs_float (hfinite : x.isFinite) (hx : ¬ Great x) :
    ∃ y, ReadsAs (.float x) (.float y) := by
  have hpointed := written_pointed hfinite hx
  obtain ⟨y, hmakes⟩ := makes_pointed hpointed
  have htoken := isToken_of_isLiteral hpointed.isLiteral
  have hdot : (written x).toList ≠ ['.'] := by
    intro hdot
    exact absurd (hdot ▸ hpointed.isLiteral.looksNumeric) (by decide)
  refine ⟨y, readsAs_atom (by simp) (by simp) (by simp) ?_ hmakes.scan⟩
  exact begins_token htoken.ne_nil htoken.atomChar htoken.head_ne hdot

theorem readsAs_of_pointed (h : d.Pointed) : ∃ d', ReadsAs d d' ∧ d'.rough = d.rough := by
  induction h with
  | readable h => exact ⟨_, readsBack_of_readable h, rfl⟩
  | float hfinite hx =>
    obtain ⟨y, hy⟩ := readsAs_float hfinite hx
    exact ⟨_, hy, by rw [Datum.rough, Datum.rough]⟩
  | pair _ _ hcar hcdr =>
    obtain ⟨car, hcar, hrough⟩ := hcar
    obtain ⟨cdr, hcdr, hrough'⟩ := hcdr
    exact ⟨_, readsAs_pair hcar hcdr, by simp only [Datum.rough, hrough, hrough']⟩
  | vector _ ih =>
    choose! read hreads hrough using ih
    refine ⟨_, readsAs_vector (List.forall₂_map_right_iff.mpr (List.forall₂_same.mpr hreads)), ?_⟩
    rw [Datum.rough, Datum.rough, List.map_map]
    exact congrArg Datum.vector (List.map_congr_left hrough)

/-- A finite double is read back as a double just when it is printed with a point. -/
theorem reads_floats (s : Store) : (∀ x : Float, x.isFinite → ReadsFloat x) ∧
    ∀ v d, s.Holds v d → d.Pointed → d.depth ≤ 63 → d.nodes ≤ 10000 →
      ∃ d', parseDatum (s.writeText v) = .ok d' ∧ d'.rough = d.rough := by
  refine ⟨fun x hx => readsFloat hx, fun v d hd hpointed hdepth hnodes => ?_⟩
  obtain ⟨d', hreads, hrough⟩ := readsAs_of_pointed hpointed
  exact ⟨d', hreads.parseDatum_eq (Nat.lt_succ_of_le hdepth) (hd.writeText hnodes), hrough⟩

/-- One half is read back as a double, and 10 ^ 16 as an integer. -/
theorem reads_floats_half :
    let d := Datum.pair (.float (.ofBits 0x3FE0000000000000)) (.int 1)
    let s := (d.place .empty).2
    let v := (d.place .empty).1
    (∃ d', parseDatum (s.writeText v) = .ok d' ∧ d'.rough = d.rough) ∧
      Makes (written (.ofBits 0x4341C37937E08000)).toList (.ok (.int 10000000000000000)) := by
  intro d s v
  constructor
  · have hhalf := ((reads_floats s).1 (.ofBits 0x3FE0000000000000) (by decide)).marked_iff
    have hpointed : d.Pointed :=
      .pair (.float (by decide) (hhalf.mp ⟨'.', by decide, .inl rfl⟩)) (.readable (.int 1))
    refine (reads_floats s).2 v d (Store.empty.place_placed d).holds hpointed ?_ ?_
    · simp [d, Datum.depth, Datum.tailDepth]
    · simp [d, Datum.nodes, Datum.tailNodes]
  · have hgreat : Great (.ofBits 0x4341C37937E08000) :=
      ⟨⟨false, 5000000000000000, 1⟩, 10000000000000000, by decide, by decide, by decide⟩
    obtain ⟨n, hn, hmakes⟩ := ((reads_floats s).1 _ (by decide)).inside hgreat (by decide)
    obtain rfl : n = 10000000000000000 := Int64.toInt_inj.mp (hn.trans (by decide))
    exact hmakes

end Reader

end HygienicScheme
