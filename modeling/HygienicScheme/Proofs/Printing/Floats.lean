import HygienicScheme.Decimal.Text
import HygienicScheme.Proofs.Numbers.Literals
import Mathlib

/-!
# The point in a printed double

A double that is no whole number lies so far from the whole numbers that none is rounded to it, and
the digits found for it have places behind the point. A whole number below 10 ^ 16 is printed with a
zero there. From 10 ^ 16 on the digits found have no places, and the text is that of an integer.
-/
namespace HygienicScheme.Decimal

variable {i : Interval} {p : Parts} {d : Digits} {a b c k n tries count : Nat} {e first : Int}

/-! ## Numbers in an interval -/

theorem Parts.whole?_eq_none :
    p.whole? = none ↔ ∃ k : Nat, p.exponent = -k ∧ p.mantissa % 2 ^ k ≠ 0 := by
  unfold Parts.whole?
  constructor
  · intro h
    split at h
    · cases h
    · obtain ⟨k, hk⟩ : ∃ k : Nat, p.exponent = -k := ⟨(-p.exponent).toNat, by omega⟩
      exact ⟨k, hk, by simpa [hk, Nat.shiftLeft_eq] using h⟩
  · rintro ⟨k, hk, hmod⟩
    have hneg : ¬ 0 ≤ p.exponent := by
      intro hexp
      obtain rfl : k = 0 := by omega
      exact hmod (by simp [Nat.mod_one])
    rw [if_neg hneg, hk, Int.neg_neg, Int.toNat_natCast, Nat.shiftLeft_eq, one_mul, if_neg hmod]

namespace Interval

theorem contains_iff : i.contains a b ↔
    (i.low * b ≤ a * i.den ∧ a * i.den ≤ i.high * b) ∧
      (i.closed = false → i.low * b < a * i.den ∧ a * i.den < i.high * b) := by
  unfold contains
  cases i.closed <;> simp
  omega

theorem contains_of_mul (hc : 0 < c) (h : i.contains (a * c) (b * c)) : i.contains a b := by
  rw [contains_iff] at h ⊢
  simp only [← mul_assoc, mul_right_comm a c i.den] at h
  refine ⟨⟨Nat.le_of_mul_le_mul_right h.1.1 hc, Nat.le_of_mul_le_mul_right h.1.2 hc⟩, ?_⟩
  intro hopen
  exact ⟨Nat.lt_of_mul_lt_mul_right (h.2 hopen).1, Nat.lt_of_mul_lt_mul_right (h.2 hopen).2⟩

theorem ofParts_fraction (k : Nat) (hk : p.exponent = -k) :
    (ofParts p).value = 4 * p.mantissa ∧ (ofParts p).den = 4 * 2 ^ k ∧
      4 * p.mantissa - 2 ≤ (ofParts p).low ∧ (ofParts p).high = 4 * p.mantissa + 2 := by
  have hup : (p.exponent - 2).toNat = 0 := by omega
  have hdown : (2 - p.exponent).toNat = k + 2 := by omega
  simp only [ofParts, hup, hdown, Nat.shiftLeft_eq, pow_zero, mul_one, one_mul]
  refine ⟨trivial, by ring, ?_, trivial⟩
  split_ifs <;> omega

theorem not_contains_whole (hp : p.whole? = none) (n : Nat) : ¬ (ofParts p).contains n 1 := by
  intro h
  obtain ⟨k, hk, hmod⟩ := Parts.whole?_eq_none.mp hp
  obtain ⟨-, hden, hlow, hhigh⟩ := ofParts_fraction k hk
  obtain ⟨⟨hle, hge⟩, -⟩ := contains_iff.mp h
  rw [hden, mul_left_comm] at hle hge
  have hexact : n * 2 ^ k = p.mantissa := by omega
  exact hmod (by rw [← hexact, Nat.mul_mod_left])

end Interval

/-! ## The digits that are found -/

namespace Digits

def Inside (d : Digits) (i : Interval) : Prop :=
  i.contains (d.digits * 10 ^ d.exponent.toNat) (10 ^ (-d.exponent).toNat)

theorem Inside.withoutZero (h : d.Inside i) : d.withoutZero.Inside i := by
  unfold Digits.withoutZero
  split_ifs with hzero
  · have hdigits : d.digits = d.digits / 10 * 10 := by omega
    obtain hneg | hpos := lt_or_ge d.exponent 0
    · have hup : d.exponent.toNat = 0 ∧ (d.exponent + 1).toNat = 0 := by omega
      have hdown : (-d.exponent).toNat = (-(d.exponent + 1)).toNat + 1 := by omega
      rw [Inside, hup.1, hdown, pow_zero, mul_one, pow_succ, hdigits] at h
      rw [Inside, hup.2, pow_zero, mul_one]
      exact Interval.contains_of_mul (by decide) h
    · have hup : (d.exponent + 1).toNat = d.exponent.toNat + 1 := by omega
      have hdown : (-d.exponent).toNat = 0 ∧ (-(d.exponent + 1)).toNat = 0 := by omega
      rw [Inside, hdown.1, hdigits] at h
      rwa [Inside, hup, hdown.2, pow_succ, mul_comm (10 ^ _) 10, ← mul_assoc]
  · exact h

theorem withoutZero_exponent (d : Digits) :
    d.exponent ≤ d.withoutZero.exponent ∧ d.withoutZero.exponent ≤ d.exponent + 1 := by
  unfold Digits.withoutZero
  split_ifs <;> simp

theorem Inside.exponent_neg (h : d.Inside i) (hwhole : ∀ n, ¬ i.contains n 1) : d.exponent < 0 := by
  by_contra hexp
  have hdown : (-d.exponent).toNat = 0 := by omega
  rw [Inside, hdown, pow_zero] at h
  exact hwhole _ h

end Digits

theorem neighbour?_inside (h : neighbour? i e = some d) : d.exponent = e ∧ d.Inside i := by
  unfold neighbour? at h
  extract_lets up down below above nearer farther at h
  split_ifs at h with hnear hfar
  · cases h
    exact ⟨rfl, hnear⟩
  · cases h
    exact ⟨rfl, hfar⟩

/-- What is found is inside, unless the digits were cut off after the last try. -/
theorem shortestFrom_inside (i : Interval) (first : Int) (tries count : Nat) :
    (shortestFrom i first tries count).Inside i ∨
      (shortestFrom i first tries count).exponent = first - (count + tries : Nat) := by
  induction tries generalizing count with
  | zero => exact .inr rfl
  | succ tries ih =>
    rw [shortestFrom]
    split
    · rename_i d hd
      exact .inl (neighbour?_inside hd).2
    · have hcount : count + (tries + 1) = count + 1 + tries := by omega
      rw [hcount]
      exact ih (count + 1)

theorem leading_le {num den : Nat} (hk : 0 < k) (h : num < den * 10 ^ k) :
    leading num den ≤ (k : Int) - 1 := by
  unfold leading
  split_ifs
  · have hwidth : width (num / den) ≤ k :=
      (Nat.length_toDigits_le_iff (by decide) hk).mpr (Nat.div_lt_of_lt_mul h)
    omega
  · omega

theorem shortest_exponent_neg (hp : p.whole? = none) (hm : p.mantissa < 2 ^ 53) :
    (shortest p).exponent < 0 := by
  obtain ⟨k, hk, hmod⟩ := Parts.whole?_eq_none.mp hp
  have hzero : p.mantissa ≠ 0 := by
    intro hzero
    exact hmod (by rw [hzero, Nat.zero_mod])
  rw [shortest, if_neg hzero]
  obtain hinside | hlast := shortestFrom_inside (.ofParts p)
    (leading (Interval.ofParts p).value (Interval.ofParts p).den) 17 0
  · exact hinside.withoutZero.exponent_neg (Interval.not_contains_whole hp)
  · obtain ⟨hvalue, hden, -, -⟩ := Interval.ofParts_fraction k hk
    have hpos := Nat.two_pow_pos k
    have hfirst := leading_le (k := 16) (by decide)
      (show (Interval.ofParts p).value < (Interval.ofParts p).den * 10 ^ 16 by omega)
    have hexp := (shortestFrom (.ofParts p)
      (leading (Interval.ofParts p).value (Interval.ofParts p).den) 17 0).withoutZero_exponent
    dsimp only
    omega

theorem neighbour?_whole (hvalue : i.value = n * i.den) (hden : 0 < i.den) (hn : i.contains n 1) :
    neighbour? i 0 = some ⟨n, 0⟩ := by
  have hbelow : n * i.den / i.den = n := Nat.mul_div_cancel n hden
  have hnear : 2 * (n * i.den) < (n + (n + 1)) * i.den := by
    rw [← mul_assoc]
    exact Nat.mul_lt_mul_of_pos_right (by omega) hden
  have hone : Nat.pow 10 0 = 1 := rfl
  simp only [neighbour?, Int.neg_zero, Int.toNat_zero, hone, mul_one, hvalue, hbelow, if_pos hnear,
    if_pos hn]

theorem shortestFrom_exponent (hzero : neighbour? i 0 = some d) (hcount : count ≤ first) :
    0 ≤ (shortestFrom i first tries count).exponent := by
  induction tries generalizing count with
  | zero => exact Int.sub_nonneg_of_le hcount
  | succ tries ih =>
    rw [shortestFrom]
    split
    · rename_i d' hd'
      rw [(neighbour?_inside hd').1]
      exact Int.sub_nonneg_of_le hcount
    · rename_i hnone
      have hne : first ≠ count := by
        rintro rfl
        rw [sub_self, hzero] at hnone
        cases hnone
      exact ih (by omega)

theorem Interval.den_pos (p : Parts) : 0 < (ofParts p).den := by
  simp [ofParts, Nat.shiftLeft_eq]

theorem Interval.value_between (hm : p.mantissa ≠ 0) :
    (ofParts p).low < (ofParts p).value ∧ (ofParts p).value < (ofParts p).high := by
  have hscale : 0 < 1 <<< (p.exponent - 2).toNat := by simp [Nat.shiftLeft_eq]
  refine ⟨Nat.mul_lt_mul_of_pos_right ?_ hscale, Nat.mul_lt_mul_of_pos_right (by omega) hscale⟩
  split_ifs <;> omega

theorem Interval.value_whole (hp : p.whole? = some n) :
    (ofParts p).value = n * (ofParts p).den := by
  unfold Parts.whole? at hp
  simp only [ofParts, Nat.shiftLeft_eq, one_mul] at hp ⊢
  split_ifs at hp with hexp hmod
  · cases hp
    have hpow : p.exponent.toNat + (2 - p.exponent).toNat = 2 + (p.exponent - 2).toNat := by omega
    rw [mul_assoc p.mantissa, ← pow_add, hpow, pow_add]
    ring
  · cases hp
    have hup : (p.exponent - 2).toNat = 0 := by omega
    have hdown : (2 - p.exponent).toNat = (-p.exponent).toNat + 2 := by omega
    have hexact := Nat.div_mul_cancel (Nat.dvd_of_mod_eq_zero hmod)
    rw [hup, hdown, pow_add, ← mul_assoc, hexact]
    ring

theorem leading_nonneg {num den : Nat} (h : den ≤ num) : 0 ≤ leading num den := by
  have hwidth : 0 < width (num / den) := Nat.length_toDigits_pos
  rw [leading, if_pos h]
  omega

theorem shortest_exponent_nonneg (hp : p.whole? = some n) : 0 ≤ (shortest p).exponent := by
  rw [shortest]
  split_ifs with hzero
  · exact le_rfl
  · have hden := Interval.den_pos p
    have hvalue := Interval.value_whole hp
    obtain ⟨hlow, hhigh⟩ := Interval.value_between hzero
    have hin : (Interval.ofParts p).contains n 1 := by
      rw [Interval.contains_iff, ← hvalue, mul_one, mul_one]
      exact ⟨⟨hlow.le, hhigh.le⟩, fun _ => ⟨hlow, hhigh⟩⟩
    have hn : 0 < n := by
      refine Nat.pos_of_ne_zero ?_
      rintro rfl
      omega
    have hfirst := leading_nonneg (hvalue ▸ Nat.le_mul_of_pos_left _ hn)
    have hexp : 0 ≤ (shortestFrom (.ofParts p) _ 17 0).exponent :=
      shortestFrom_exponent (neighbour?_whole hvalue hden hin) hfirst
    exact hexp.trans (Digits.withoutZero_exponent _).1

/-! ## The text -/

theorem allDigits_toDigits (n : Nat) : AllDigits (Nat.toDigits 10 n) :=
  fun _ hc => Nat.isDigit_of_mem_toDigits (by decide) (by decide) hc

theorem Digits.positional_whole (h : 0 ≤ d.exponent) : d.positional.toList =
    Nat.toDigits 10 d.digits ++ List.replicate d.exponent.toNat '0' := by
  rw [Digits.positional, if_pos h, String.toList_ofList]

theorem Digits.positional_fraction (h : d.exponent < 0) : ∃ ds ps, AllDigits ds ∧ ds ≠ [] ∧
    AllDigits ps ∧ ps ≠ [] ∧ d.positional.toList = ds ++ '.' :: ps := by
  unfold Digits.positional
  extract_lets digits places padded split
  rw [if_neg (by omega), String.toList_ofList]
  have hdigits : AllDigits padded := by
    intro c hc
    obtain hc | hc := List.mem_append.mp hc
    · obtain rfl := List.eq_of_mem_replicate hc
      decide
    · exact allDigits_toDigits _ c hc
  have hlength : places + 1 ≤ padded.length := by
    rw [List.length_append, List.length_replicate]
    omega
  have hplaces : 0 < places := by omega
  refine ⟨padded.take split, padded.drop split, fun c hc => hdigits c (List.mem_of_mem_take hc), ?_,
    fun c hc => hdigits c (List.mem_of_mem_drop hc), ?_, rfl⟩
  · refine List.ne_nil_of_length_pos ?_
    rw [List.length_take]
    omega
  · refine List.ne_nil_of_length_pos ?_
    rw [List.length_drop]
    omega

def Pointed (cs : List Char) : Prop := ∃ sg ds ps, IsSign sg ∧ AllDigits ds ∧ ds ≠ [] ∧
  AllDigits ps ∧ ps ≠ [] ∧ cs = sg ++ (ds ++ '.' :: ps)

theorem isSign_signText (p : Parts) : IsSign p.signText.toList := by
  unfold Parts.signText
  split_ifs
  · exact .inr (.inr rfl)
  · exact .inl rfl

variable {x : Float}

section Finite

open Float.Model Float.Model.UnpackedFloat

theorem toNat_unpackExponent (x : Float) :
    (@unpackExponent .binary64 x.toModel.toBits.toBitVec).toNat =
      x.toBits.toNat >>> 52 % 2048 := by
  simp [unpackExponent, Float.toBits]

theorem isFinite_iff : x.isFinite ↔ ∃ p, Kind.ofFloat x = .finite p := by
  have hexp := toNat_unpackExponent x
  have hunpack : x.isFinite =
      (UnpackedFloat.unpack Format.binary64 x.toModel.toBits.toBitVec).isFinite := rfl
  rw [hunpack]
  unfold Kind.ofFloat
  extract_lets bits negative biased fraction
  unfold UnpackedFloat.unpack
  extract_lets mantissa exponent _ _ _
  have hspecial : exponent = -1#_ ↔ biased = 2047 := by
    rw [← BitVec.toNat_inj]
    change _ ↔ x.toBits.toNat >>> 52 % 2048 = 2047
    rw [← hexp]
    rfl
  by_cases h : biased = 2047
  · rw [if_pos (hspecial.mpr h), if_pos h]
    split_ifs <;> simp [UnpackedFloat.isFinite]
  · rw [if_neg (mt hspecial.mp h), if_neg h]
    split_ifs <;> simp [UnpackedFloat.isFinite]

end Finite

theorem mantissa_lt (hx : Kind.ofFloat x = .finite p) : p.mantissa < 2 ^ 53 := by
  unfold Kind.ofFloat at hx
  extract_lets bits negative biased fraction at hx
  have hfraction : fraction < 2 ^ 52 := Nat.mod_lt _ (by decide)
  split_ifs at hx
  · cases hx
    exact hfraction.trans (by decide)
  · cases hx
    exact Nat.add_lt_add_right hfraction (2 ^ 52)

def Great (x : Float) : Prop :=
  ∃ p n, Kind.ofFloat x = .finite p ∧ p.whole? = some n ∧ 10 ^ 16 ≤ n

theorem written_pointed (hfinite : x.isFinite) (hx : ¬ Great x) : Pointed (written x).toList := by
  obtain ⟨p, hp⟩ := isFinite_iff.mp hfinite
  have hsign := isSign_signText p
  simp only [written, hp]
  cases hwhole : p.whole? with
  | none =>
    obtain ⟨ds, ps, hd, hne, hps, hne', htext⟩ :=
      Digits.positional_fraction (shortest_exponent_neg hwhole (mantissa_lt hp))
    exact ⟨_, ds, ps, hsign, hd, hne, hps, hne', by simp only [String.toList_append, htext]⟩
  | some n =>
    have hsmall : n < Nat.pow 10 16 := Nat.lt_of_not_le fun h => hx ⟨p, n, hp, hwhole, h⟩
    refine ⟨_, Nat.toDigits 10 n, ['0'], hsign, allDigits_toDigits n, Nat.toDigits_ne_nil,
      by decide, by decide, ?_⟩
    simp only [if_pos hsmall, String.toList_append]
    change p.signText.toList ++ n.repr.toList ++ ".0".toList = _
    rw [Nat.toList_repr, List.append_assoc]
    rfl

theorem written_whole (hx : Great x) : IsWhole (written x).toList := by
  obtain ⟨p, n, hp, hwhole, hgreat⟩ := hx
  have hlarge : ¬ n < Nat.pow 10 16 := Nat.not_lt_of_le hgreat
  simp only [written, hp, hwhole, if_neg hlarge, String.toList_append,
    Digits.positional_whole (shortest_exponent_nonneg hwhole)]
  refine ⟨_, _, isSign_signText p, ?_, by simp [Nat.toDigits_ne_nil], rfl⟩
  intro c hc
  obtain hc | hc := List.mem_append.mp hc
  · exact allDigits_toDigits _ c hc
  · obtain rfl := List.eq_of_mem_replicate hc
    decide

end HygienicScheme.Decimal
