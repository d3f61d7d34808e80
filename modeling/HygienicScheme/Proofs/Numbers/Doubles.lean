import HygienicScheme.Decimal.Parts
import Mathlib

/-!
# Doubles of whole numbers

A whole number becomes a double by rounding to 53 binary digits, half going to the even neighbour:
`nearest` is the number that comes out. It is computed by shifting the mantissa, which keeps of the
bits shifted out only what rounding asks for. Two doubles made so compare as the rounded numbers do.
-/
namespace HygienicScheme.Decimal

section Rounding

variable {a b c k m n : Nat}

/-! ## Rounding a quotient -/

theorem roundEven_mul_right (hc : 0 < c) : roundEven (a * c) (b * c) = roundEven a b := by
  have hlow : 2 * (a % b * c) < b * c ↔ 2 * (a % b) < b := by
    rw [← mul_assoc]
    exact Nat.mul_lt_mul_right hc
  have hhigh : b * c < 2 * (a % b * c) ↔ b < 2 * (a % b) := by
    rw [← mul_assoc]
    exact Nat.mul_lt_mul_right hc
  simp only [roundEven, Nat.mul_div_mul_right _ _ hc, Nat.mul_mod_mul_right, hlow, hhigh]

theorem roundEven_mul_self (hb : 0 < b) : roundEven (a * b) b = a := by
  simp [roundEven, hb]

theorem roundEven_mono (h : a ≤ c) : roundEven a b ≤ roundEven c b := by
  have ha := Nat.div_add_mod a b
  have hc := Nat.div_add_mod c b
  have hle : a / b ≤ c / b := Nat.div_le_div_right h
  simp only [roundEven]
  obtain heq | hlt := hle.eq_or_lt
  · rw [heq] at ha ⊢
    have hmod : a % b ≤ c % b := by omega
    split_ifs <;> omega
  · split_ifs <;> omega

theorem roundEven_le (hb : 0 < b) (h : a ≤ k * b) : roundEven a b ≤ k :=
  (roundEven_mono h).trans (roundEven_mul_self hb).le

theorem le_roundEven (hb : 0 < b) (h : k * b ≤ a) : k ≤ roundEven a b :=
  (roundEven_mul_self hb).ge.trans (roundEven_mono h)

/-! ## The nearest double -/

def nearestNat (n : Nat) : Nat := roundEven n (2 ^ (n.log2 - 52)) * 2 ^ (n.log2 - 52)

def nearest (n : Int) : Int := if n < 0 then -nearestNat n.natAbs else nearestNat n.natAbs

theorem nearestNat_of_log2 (h : n.log2 ≤ 52) : nearestNat n = n := by
  have hself := roundEven_mul_self (a := n) Nat.one_pos
  rw [mul_one] at hself
  rw [nearestNat, Nat.sub_eq_zero_of_le h, pow_zero, mul_one, hself]

theorem nearestNat_le (n : Nat) : nearestNat n ≤ 2 ^ (n.log2 + 1) := by
  by_cases h : n.log2 ≤ 52
  · rw [nearestNat_of_log2 h]
    exact Nat.lt_log2_self.le
  · have hpow : 2 ^ 53 * 2 ^ (n.log2 - 52) = 2 ^ (n.log2 + 1) := by
      rw [← pow_add]
      congr 1
      omega
    rw [← hpow]
    refine Nat.mul_le_mul_right _ (roundEven_le (Nat.two_pow_pos _) ?_)
    rw [hpow]
    exact Nat.lt_log2_self.le

theorem le_nearestNat (hn : n ≠ 0) : 2 ^ n.log2 ≤ nearestNat n := by
  by_cases h : n.log2 ≤ 52
  · rw [nearestNat_of_log2 h]
    exact Nat.log2_self_le hn
  · have hpow : 2 ^ 52 * 2 ^ (n.log2 - 52) = 2 ^ n.log2 := by
      rw [← pow_add]
      congr 1
      omega
    rw [← hpow]
    refine Nat.mul_le_mul_right _ (le_roundEven (Nat.two_pow_pos _) ?_)
    rw [hpow]
    exact Nat.log2_self_le hn

theorem nearestNat_mono (h : m ≤ n) : nearestNat m ≤ nearestNat n := by
  by_cases hm : m = 0
  · subst hm
    exact Nat.zero_le _
  have hn : n ≠ 0 := by omega
  have hlog : m.log2 ≤ n.log2 := (Nat.le_log2 hn).mpr ((Nat.log2_self_le hm).trans h)
  obtain heq | hlt := hlog.eq_or_lt
  · rw [nearestNat, nearestNat, heq]
    exact Nat.mul_le_mul_right _ (roundEven_mono h)
  · -- A power of two lies between them.
    calc nearestNat m ≤ 2 ^ (m.log2 + 1) := nearestNat_le m
      _ ≤ 2 ^ n.log2 := Nat.pow_le_pow_right (by decide) hlt
      _ ≤ nearestNat n := le_nearestNat hn

theorem nearest_mono {i j : Int} (h : i ≤ j) : nearest i ≤ nearest j := by
  unfold nearest
  split_ifs with hi hj hj
  · have hle := nearestNat_mono (by omega : j.natAbs ≤ i.natAbs)
    omega
  · omega
  · omega
  · have hle := nearestNat_mono (by omega : i.natAbs ≤ j.natAbs)
    omega

theorem nearest_of_small {i : Int} (h : i.natAbs ≤ 2 ^ 53) : nearest i = i := by
  have hsmall : nearestNat i.natAbs = i.natAbs := by
    obtain hlt | heq := h.lt_or_eq
    · by_cases hzero : i.natAbs = 0
      · rw [hzero]
        rfl
      · exact nearestNat_of_log2 (Nat.le_of_lt_succ ((Nat.log2_lt hzero).mpr hlt))
    · rw [heq]
      rfl
  rw [nearest, hsmall]
  split_ifs <;> omega

end Rounding

/-! ## Doubles and what they denote -/

open Float.Model Float.Model.UnpackedFloat

section Denoting

variable {k m n : Nat} {e : Int} {s : Sign}

structure Residue (n k : Nat) (x : ExtendedMantissa) : Prop where
  mantissa : x.mantissa = n / 2 ^ k
  roundBit : x.roundBit ↔ 2 ^ k ≤ 2 * (n % 2 ^ k)
  stickyBit : x.stickyBit ↔ n % 2 ^ k ≠ 0 ∧ 2 * (n % 2 ^ k) ≠ 2 ^ k

theorem Residue.shiftRightOne {x : ExtendedMantissa} (h : Residue n k x) :
    Residue n (k + 1) x.shiftRightOne := by
  have hrest := Nat.mod_lt n (Nat.two_pow_pos k)
  have hsplit : n % 2 ^ (k + 1) = n % 2 ^ k + 2 ^ k * (n / 2 ^ k % 2) := by
    rw [pow_succ]
    exact Nat.mod_mul
  have hbit := Nat.mod_two_eq_zero_or_one (n / 2 ^ k)
  constructor
  · rw [ExtendedMantissa.shiftRightOne, h.mantissa, pow_succ, Nat.div_div_eq_div_mul]
  · simp only [ExtendedMantissa.shiftRightOne, h.mantissa, bne_iff_ne]
    rw [hsplit, pow_succ']
    obtain hbit | hbit := hbit <;> rw [hbit] <;> omega
  · simp only [ExtendedMantissa.shiftRightOne, Bool.or_eq_true, h.roundBit, h.stickyBit]
    rw [hsplit, pow_succ']
    obtain hbit | hbit := hbit <;> rw [hbit] <;> omega

theorem residue_shift (n k : Nat) :
    Residue n k (ExtendedMantissa.ofMantissaAndAccuracy n .exact >>> k) := by
  change Residue n k (k.repeat ExtendedMantissa.shiftRightOne _)
  induction k with
  | zero => constructor <;> simp [Nat.repeat, ExtendedMantissa.ofMantissaAndAccuracy, Nat.mod_one]
  | succ k ih => exact ih.shiftRightOne

theorem Residue.roundedMantissa {x : ExtendedMantissa} (h : Residue n k x) :
    x.roundedMantissa = roundEven n (2 ^ k) := by
  obtain ⟨m, r, s⟩ := x
  obtain ⟨rfl, hr, hs⟩ : m = n / 2 ^ k ∧ _ ∧ _ := ⟨h.mantissa, h.roundBit, h.stickyBit⟩
  have hrest := Nat.mod_lt n (Nat.two_pow_pos k)
  rw [roundEven]
  cases r <;> cases s <;>
    simp only [ExtendedMantissa.roundedMantissa, ExtendedMantissa.accuracy,
      Accuracy.roundToNearestEven, Bool.false_eq_true, false_iff, true_iff] at hr hs ⊢ <;>
    split_ifs <;> omega

theorem targetExponent_eq (n : Nat) (e : Int) :
    Format.binary64.targetExponent (totalExponent n e) = max (n.log2 + e - 52) (-1074) := by
  simp only [Format.targetExponent, totalExponent, Format.mantissaBits, Format.minExponent]
  norm_num
  omega

theorem shiftToTargetExponent_eq (hk : n.log2 = 52 + k) (he : -1074 ≤ e + k) :
    shiftToTargetExponent Format.binary64 n e .exact =
      (ExtendedMantissa.ofMantissaAndAccuracy n .exact >>> k, e + k) := by
  have htarget : max (n.log2 + e - 52) (-1074) = e + k := by omega
  simp only [shiftToTargetExponent, shiftToExponent, targetExponent_eq, htarget,
    add_sub_cancel_left, Int.toNat_natCast]

theorem roundWithAccuracy_of_shift {x : ExtendedMantissa} {e' : Int} (hm : 0 < x.mantissa)
    (h : shiftToTargetExponent Format.binary64
      (shiftToTargetExponent Format.binary64 n e .exact).1.roundedMantissa
      (shiftToTargetExponent Format.binary64 n e .exact).2 .exact = (x, e')) :
    roundWithAccuracy Format.binary64 s n e .exact = .finite s x.mantissa e' hm := by
  unfold roundWithAccuracy
  dsimp only
  generalize shiftToTargetExponent Format.binary64
    (shiftToTargetExponent Format.binary64 n e .exact).1.roundedMantissa
    (shiftToTargetExponent Format.binary64 n e .exact).2 .exact = y at h ⊢
  subst h
  exact dif_neg hm.ne'

theorem roundEven_bounds (hn : n ≠ 0) (hk : n.log2 = 52 + k) :
    2 ^ 52 ≤ roundEven n (2 ^ k) ∧ roundEven n (2 ^ k) ≤ 2 ^ 53 := by
  have hlow := Nat.log2_self_le hn
  have hhigh := Nat.lt_log2_self (n := n)
  rw [hk, pow_add] at hlow
  rw [hk, add_right_comm, pow_add] at hhigh
  exact ⟨le_roundEven (Nat.two_pow_pos k) hlow, roundEven_le (Nat.two_pow_pos k) hhigh.le⟩

theorem roundWithAccuracy_eq (hn : n ≠ 0) (hk : n.log2 = 52 + k) (he : -1074 ≤ e + k) :
    ∃ (m j : Nat) (hm : 0 < m), roundWithAccuracy Format.binary64 s n e .exact =
      .finite s m (e + k + j) hm ∧ 2 ^ 52 ≤ m ∧ m < 2 ^ 53 ∧ j ≤ 1 ∧
      m * 2 ^ j = roundEven n (2 ^ k) := by
  obtain ⟨hlow, hhigh⟩ := roundEven_bounds hn hk
  have hround := @roundWithAccuracy_of_shift n e s
  rw [shiftToTargetExponent_eq hk he, (residue_shift n k).roundedMantissa] at hround
  generalize roundEven n (2 ^ k) = r at hlow hhigh hround ⊢
  obtain ⟨j, hj, hlog, hexact, hfull⟩ : ∃ j ≤ 1, r.log2 = 52 + j ∧ r / 2 ^ j * 2 ^ j = r ∧
      2 ^ 52 ≤ r / 2 ^ j ∧ r / 2 ^ j < 2 ^ 53 := by
    obtain hlt | rfl := hhigh.lt_or_eq
    · exact ⟨0, Nat.zero_le 1, (Nat.log2_eq_iff (by omega)).mpr ⟨hlow, hlt⟩, by simp,
        by simpa using ⟨hlow, hlt⟩⟩
    · exact ⟨1, le_rfl, Nat.log2_two_pow (n := 53), by norm_num⟩
  have hfits := shiftToTargetExponent_eq (e := e + k) hlog (by omega)
  rw [← (residue_shift r j).mantissa] at hexact hfull
  exact ⟨_, j, by omega, hround (by omega) hfits, hfull.1, hfull.2, hj, hexact⟩

inductive Denotes (x : Float) : Int → Prop
  | zero {s : Sign} (h : x.toModel.unpack = .zero s) : Denotes x 0
  | finite {s : Sign} {m e : Nat} {hm : 0 < m} (h : x.toModel.unpack = .finite s m (e - 52) hm)
      (low : 2 ^ 52 ≤ m) (high : m < 2 ^ 53) (he : e ≤ 1023) :
      Denotes x (s.apply ((m * 2 ^ e : Nat) : Int))

end Denoting

/-! ## Packing -/

variable {m n e : Nat} {s : Sign}

theorem toNat_append_mantissa (low : 2 ^ 52 ≤ m) (high : m < 2 ^ 53) :
    (1#1 ++ BitVec.ofNat 52 m).toNat = m := by
  rw [BitVec.toNat_append, ← Nat.shiftLeft_add_eq_or_of_lt (BitVec.isLt _), BitVec.toNat_ofNat]
  simp only [BitVec.toNat_ofNat, Nat.shiftLeft_eq]
  omega

theorem pack_finite {b : Nat} {hm : 0 < m} (low : 2 ^ 52 ≤ m) (high : m < 2 ^ 53)
    (hb : b < 2047) : pack Format.binary64 (.finite s m ((b : Int) - 1075) hm) =
      packComponents Format.binary64 s (BitVec.ofNat 11 b) (BitVec.ofNat 52 m) := by
  have hlog : m.log2 = 52 := (Nat.log2_eq_iff (by omega)).mpr ⟨low, high⟩
  have hbias : ((b : Int) - 1075 + Format.binary64.exponentBias +
      Format.binary64.mantissaBitsWithoutImplicit).toNat = b := by
    simp only [Format.exponentBias]
    norm_num
    omega
  have hfits : ¬ 2 ^ 11 ≤ b + 1 := by omega
  simp only [UnpackedFloat.pack, hbias, hlog, if_neg hfits]
  rfl

theorem ofNat_ne {w b c : Nat} (hb : b < 2 ^ w) (hc : c < 2 ^ w) (h : b ≠ c) :
    BitVec.ofNat w b ≠ BitVec.ofNat w c := by
  intro heq
  have hnat := congrArg BitVec.toNat heq
  rw [BitVec.toNat_ofNat, BitVec.toNat_ofNat, Nat.mod_eq_of_lt hb, Nat.mod_eq_of_lt hc] at hnat
  exact h hnat

theorem unpack_pack_zero (s : Sign) : (Float.Model.pack (.zero s)).unpack = .zero s := by
  cases s <;> rfl

theorem unpack_pack {i : Int} {hm : 0 < m} (low : 2 ^ 52 ≤ m) (high : m < 2 ^ 53)
    (hi : -1074 ≤ i) (hi' : i ≤ 971) :
    (Float.Model.pack (.finite s m i hm)).unpack = .finite s m i hm := by
  obtain ⟨b, rfl⟩ : ∃ b : Nat, i = (b : Int) - 1075 := ⟨(i + 1075).toNat, by omega⟩
  have hones : BitVec.ofNat 11 b ≠ -1#11 :=
    ofNat_ne (c := 2047) (by omega) (by omega) (by omega)
  have hzero : BitVec.ofNat 11 b ≠ 0#11 := ofNat_ne (c := 0) (by omega) (by omega) (by omega)
  have hbits : (BitVec.ofNat 11 b).toNat = b := by
    rw [BitVec.toNat_ofNat]
    omega
  change UnpackedFloat.unpack Format.binary64 (UnpackedFloat.pack Format.binary64 _) = _
  rw [pack_finite low high (by omega)]
  simp only [UnpackedFloat.unpack, unpackMantissa_packComponents, unpackExponent_packComponents,
    unpackSign_packComponents, Sign.ofBitVec_toBitVec]
  rw [if_neg hones, if_neg hzero]
  simp only [toNat_append_mantissa low high, hbits]
  rfl

theorem denotes_pack {f : UnpackedFloat} {hm : 0 < m} (hf : f = .finite s m (e - 52) hm)
    (low : 2 ^ 52 ≤ m) (high : m < 2 ^ 53) (he : e ≤ 1023) :
    Denotes (.ofModel (.pack f)) (s.apply ((m * 2 ^ e : Nat) : Int)) := by
  subst hf
  exact .finite (unpack_pack low high (by omega) (by omega)) low high he

theorem Denotes.neg {x : Float} {z : Int} (h : Denotes x z) : Denotes x.neg (-z) := by
  cases h with
  | @zero s h =>
    refine .zero (s := -s) ?_
    change (Float.Model.pack (UnpackedFloat.neg x.toModel.unpack)).unpack = _
    rw [h]
    exact unpack_pack_zero _
  | @finite s m e hm h low high he =>
    have hneg : -s.apply ((m * 2 ^ e : Nat) : Int) = (-s).apply ((m * 2 ^ e : Nat) : Int) := by
      cases s with
      | negative => exact Int.neg_neg _
      | positive => rfl
    rw [hneg]
    change Denotes (.ofModel (.pack (UnpackedFloat.neg x.toModel.unpack))) _
    exact denotes_pack (by rw [h]; rfl) low high he

/-! ## Conversion of whole numbers -/

theorem log2_mul_two_pow (hn : n ≠ 0) (i : Nat) : (n * 2 ^ i).log2 = n.log2 + i := by
  have hpos := Nat.two_pow_pos i
  rw [Nat.log2_eq_iff (Nat.mul_ne_zero hn hpos.ne'), add_right_comm, pow_add, pow_add]
  exact ⟨Nat.mul_le_mul_right _ (Nat.log2_self_le hn),
    Nat.mul_lt_mul_of_pos_right Nat.lt_log2_self hpos⟩

/-- However many zeros stand behind the digits of a whole number, it is rounded to the same. -/
theorem roundWithAccuracy_whole {i : Nat} (hn : n ≠ 0) (hi : 52 ≤ n.log2 + i) :
    ∃ (m e : Nat) (hm : 0 < m), roundWithAccuracy Format.binary64 s (n * 2 ^ i) (-i) .exact =
      .finite s m (e - 52) hm ∧ 2 ^ 52 ≤ m ∧ m < 2 ^ 53 ∧ e ≤ n.log2 + 1 ∧
      m * 2 ^ e = nearestNat n * 2 ^ 52 := by
  obtain ⟨k, hk⟩ := Nat.exists_eq_add_of_le hi
  have hne : n * 2 ^ i ≠ 0 := Nat.mul_ne_zero hn (Nat.two_pow_pos i).ne'
  obtain ⟨m, j, hm, hround, hlow, hhigh, hj, hvalue⟩ :=
    roundWithAccuracy_eq (s := s) (e := -i) hne ((log2_mul_two_pow hn i).trans hk) (by omega)
  refine ⟨m, n.log2 + j, hm, ?_, hlow, hhigh, by omega, ?_⟩
  · rw [hround]
    congr 1
    omega
  · rw [pow_add, mul_left_comm, hvalue]
    obtain hle | hle := Nat.le_total n.log2 52
    · -- All digits are kept, and zeros are added to them or taken off.
      obtain ⟨l, hl⟩ := Nat.exists_eq_add_of_le hle
      obtain rfl : i = l + k := by omega
      rw [nearestNat_of_log2 hle, pow_add, ← mul_assoc, roundEven_mul_self (Nat.two_pow_pos k), hl,
        pow_add]
      ring
    · obtain ⟨l, hl⟩ := Nat.exists_eq_add_of_le hle
      obtain rfl : k = l + i := by omega
      rw [nearestNat, hl, pow_add 2 l i, roundEven_mul_right (Nat.two_pow_pos i),
        Nat.add_sub_cancel_left]
      ring

theorem denotes_rounded {f : UnpackedFloat} {i : Nat} (hn : n ≠ 0) (hi : 52 ≤ n.log2 + i)
    (hlog : n.log2 ≤ 1000) (hf : f = roundWithAccuracy Format.binary64 s (n * 2 ^ i) (-i) .exact) :
    Denotes (.ofModel (.pack f)) (s.apply ((nearestNat n * 2 ^ 52 : Nat) : Int)) := by
  obtain ⟨m, e, hm, hround, hlow, hhigh, he, hvalue⟩ := roundWithAccuracy_whole (s := s) hn hi
  rw [← hvalue]
  exact denotes_pack (hf.trans hround) hlow hhigh (by omega)

theorem round_eq (hlog : n.log2 ≤ 52) : UnpackedFloat.round Format.binary64 s n 0 =
    roundWithAccuracy Format.binary64 s (n * 2 ^ (52 - n.log2)) (-(52 - n.log2 : Nat)) .exact := by
  have htarget : max ((n.log2 : Int) + 0 - 52) (-1074) = (n.log2 : Int) - 52 := by omega
  have hshift : (0 - ((n.log2 : Int) - 52)).toNat = 52 - n.log2 := by omega
  simp only [UnpackedFloat.round, targetExponent_eq, htarget, decreaseExponent, hshift,
    Nat.shiftLeft_eq]
  congr 1
  omega

theorem unpack_toFloat (hn : n ≠ 0) (hlog : n.log2 ≤ 52) : ∃ (m e : Nat) (hm : 0 < m),
    n.toUInt64.toFloat.toModel.unpack = .finite .positive m (e - 52) hm ∧ e ≤ n.log2 + 1 ∧
    m * 2 ^ e = n * 2 ^ 52 := by
  obtain ⟨m, e, hm, hround, hlow, hhigh, he, hvalue⟩ :=
    roundWithAccuracy_whole (s := .positive) (i := 52 - n.log2) hn (by omega)
  rw [nearestNat_of_log2 hlog] at hvalue
  have hword : n.toUInt64.toNat = n := by
    have hlt := (Nat.log2_lt hn).mp (Nat.lt_succ_of_le hlog)
    rw [Nat.toUInt64_eq, UInt64.toNat_ofNat']
    omega
  have hfinite : UnpackedFloat.ofUInt64 Format.binary64 n.toUInt64 =
      .finite .positive m (e - 52) hm := by
    simp only [UnpackedFloat.ofUInt64, UnpackedFloat.ofNat, UnpackedFloat.ofInt, hword,
      UnpackedFloat.normalize]
    rw [Int.compare_eq_gt.mpr (by omega : (0 : Int) < n), ← hround, ← round_eq hlog]
    rfl
  refine ⟨m, e, hm, ?_, he, hvalue⟩
  change (Float.Model.pack (UnpackedFloat.ofUInt64 _ _)).unpack = _
  rw [hfinite, unpack_pack hlow hhigh (by omega) (by omega)]

theorem mul_positive {m' : Nat} {i j : Int} {hm : 0 < m} {hm' : 0 < m'} :
    UnpackedFloat.mul Format.binary64 (.finite .positive m i hm) (.finite .positive m' j hm') =
      roundWithAccuracy Format.binary64 .positive (m * m') (i + j) .exact := rfl

theorem ofScientific_whole (hn : n ≠ 0) : UnpackedFloat.ofScientific Format.binary64 n 0 =
    roundWithAccuracy Format.binary64 .positive (n * 2 ^ 53) (-53) .exact := by
  have hlow : ¬ (2 ^ Format.binary64.exponentBits : Int) < 0 := by norm_num
  have hhigh : ¬ (0 : Int) < -((2 ^ Format.binary64.exponentBits : Int) + n.log2) := by norm_num
  unfold UnpackedFloat.ofScientific
  rw [dif_neg hn, if_neg hlow, if_neg hhigh, if_pos le_rfl, mul_positive, Nat.shiftLeft_eq]
  simp [Format.mantissaBits]

theorem unpack_one : (Float.exactlyRepresentablePowersOfTen[0]).toModel.unpack =
    .finite .positive (2 ^ 52) (-52) (Nat.two_pow_pos 52) := rfl

theorem denotes_ofNat (hn : n ≠ 0) (hlog : n.log2 ≤ 1000) :
    Denotes (Float.ofNat n) ((nearestNat n * 2 ^ 52 : Nat) : Int) := by
  change Denotes (Float.ofScientific n false 0) _
  unfold Float.ofScientific
  by_cases h : n < 2 ^ 53
  · -- The word is converted and multiplied by one, which rounds a second time.
    have hsmall : n.log2 ≤ 52 := Nat.le_of_lt_succ ((Nat.log2_lt hn).mpr h)
    obtain ⟨m, e, hm, hword, he, hvalue⟩ := unpack_toFloat hn hsmall
    rw [dif_pos (by simpa using h)]
    refine denotes_rounded (s := .positive) (i := 104 - e) hn (by omega) hlog ?_
    rw [hword, unpack_one, mul_positive]
    congr 1
    · apply Nat.mul_right_cancel (Nat.two_pow_pos e)
      rw [mul_right_comm, hvalue, mul_assoc, mul_assoc, ← pow_add, ← pow_add]
      congr 2
      omega
    · omega
  · rw [dif_neg (by simpa using h)]
    exact denotes_rounded (s := .positive) (i := 53) hn (by omega) hlog (ofScientific_whole hn)

theorem denotes_ofInt {i : Int} (h : i.natAbs < 2 ^ 64) :
    Denotes (Float.ofInt i) (nearest i * 2 ^ 52) := by
  have hlog : ∀ n : Nat, n + 1 < 2 ^ 64 → (n + 1).log2 ≤ 1000 := fun n hlt => by
    have hless : (n + 1).log2 < 64 := (Nat.log2_lt n.succ_ne_zero).mpr hlt
    omega
  match i with
  | 0 => exact .zero (s := .positive) rfl
  | (n + 1 : Nat) =>
    have hvalue : nearest (n + 1 : Nat) * 2 ^ 52 = (nearestNat (n + 1) * 2 ^ 52 : Nat) := by
      rw [nearest, if_neg (Int.not_lt.mpr (Int.natCast_nonneg (n + 1))), Nat.cast_mul]
      rfl
    rw [hvalue]
    exact denotes_ofNat n.succ_ne_zero (hlog n h)
  | .negSucc n =>
    have hvalue : nearest (.negSucc n) * 2 ^ 52 = -(nearestNat (n + 1) * 2 ^ 52 : Nat) := by
      rw [nearest, if_pos (Int.negSucc_lt_zero n), Nat.cast_mul, Int.neg_mul]
      rfl
    rw [hvalue]
    exact (denotes_ofNat n.succ_ne_zero (hlog n h)).neg

/-! ## Comparison -/

theorem magnitude_lt {m' e' : Nat} (low : 2 ^ 52 ≤ m') (high : m < 2 ^ 53) (he : e < e') :
    m * 2 ^ e < m' * 2 ^ e' := by
  have hexp : 2 ^ (e + 1) ≤ 2 ^ e' := Nat.pow_le_pow_right (by decide) he
  calc m * 2 ^ e < 2 ^ 53 * 2 ^ e := Nat.mul_lt_mul_of_pos_right high (Nat.two_pow_pos e)
    _ = 2 ^ 52 * 2 ^ (e + 1) := by rw [pow_succ 2 52, pow_succ 2 e, mul_right_comm, mul_assoc]
    _ ≤ m' * 2 ^ e' := Nat.mul_le_mul low hexp

theorem compare_natCast_lt {a b : Nat} (h : a < b) : compare (a : Int) (b : Int) = .lt :=
  Int.compare_eq_lt.mpr (Int.ofNat_lt.mpr h)

theorem compare_natCast_gt {a b : Nat} (h : b < a) : compare (a : Int) (b : Int) = .gt :=
  Int.compare_eq_gt.mpr (Int.ofNat_lt.mpr h)

theorem compare_magnitude {m' : Nat} (e e' : Nat) (low : 2 ^ 52 ≤ m) (high : m < 2 ^ 53)
    (low' : 2 ^ 52 ≤ m') (high' : m' < 2 ^ 53) :
    (compare ((e : Int) - 52) (e' - 52)).then (compare m m') =
      compare ((m * 2 ^ e : Nat) : Int) (m' * 2 ^ e' : Nat) := by
  obtain hlt | rfl | hlt := Nat.lt_trichotomy e e'
  · rw [Int.compare_eq_lt.mpr (by omega : (e : Int) - 52 < e' - 52),
      compare_natCast_lt (magnitude_lt low' high hlt)]
    rfl
  · have hpos := Nat.two_pow_pos e
    rw [Std.compare_self, Ordering.then]
    obtain hm | rfl | hm := Nat.lt_trichotomy m m'
    · rw [Nat.compare_eq_lt.mpr hm, compare_natCast_lt (Nat.mul_lt_mul_of_pos_right hm hpos)]
    · rw [Std.compare_self, Std.compare_self]
    · rw [Nat.compare_eq_gt.mpr hm, compare_natCast_gt (Nat.mul_lt_mul_of_pos_right hm hpos)]
  · rw [Int.compare_eq_gt.mpr (by omega : (e' : Int) - 52 < e - 52),
      compare_natCast_gt (magnitude_lt low high' hlt)]
    rfl

theorem swap_compare (a b : Int) : (compare a b).swap = compare (-a) (-b) := by
  obtain h | rfl | h := Int.lt_trichotomy a b
  · rw [Int.compare_eq_lt.mpr h, Int.compare_eq_gt.mpr (Int.neg_lt_neg h)]
    rfl
  · rw [Std.compare_self, Std.compare_self]
    rfl
  · rw [Int.compare_eq_gt.mpr h, Int.compare_eq_lt.mpr (Int.neg_lt_neg h)]
    rfl

theorem Denotes.compare_eq {x y : Float} {a b : Int} (hx : Denotes x a) (hy : Denotes y b) :
    x.toModel.unpack.compare y.toModel.unpack = some (compare a b) := by
  cases hx with
  | zero hx =>
    cases hy with
    | zero hy =>
      rw [hx, hy]
      rfl
    | @finite s m e hm hy =>
      have hpos : (0 : Int) < (m * 2 ^ e : Nat) := Int.natCast_pos.mpr (by positivity)
      rw [hx, hy]
      cases s with
      | negative => exact congrArg some (Int.compare_eq_gt.mpr (Int.neg_neg_of_pos hpos)).symm
      | positive => exact congrArg some (Int.compare_eq_lt.mpr hpos).symm
  | @finite s m e hm hx low high =>
    have hpos : (0 : Int) < (m * 2 ^ e : Nat) := Int.natCast_pos.mpr (by positivity)
    cases hy with
    | zero hy =>
      rw [hx, hy]
      cases s with
      | negative => exact congrArg some (Int.compare_eq_lt.mpr (Int.neg_neg_of_pos hpos)).symm
      | positive => exact congrArg some (Int.compare_eq_gt.mpr hpos).symm
    | @finite s' m' e' hm' hy low' high' =>
      have hpos' : (0 : Int) < (m' * 2 ^ e' : Nat) := Int.natCast_pos.mpr (by positivity)
      -- Between numbers of one sign the magnitudes decide.
      have hmagnitude := compare_magnitude e e' low high low' high'
      rw [hx, hy]
      cases s with
      | negative =>
        cases s' with
        | negative =>
          rw [Sign.apply, Sign.apply, ← swap_compare, ← hmagnitude]
          rfl
        | positive =>
          have hlt := (Int.neg_neg_of_pos hpos).trans hpos'
          exact congrArg some (Int.compare_eq_lt.mpr hlt).symm
      | positive =>
        cases s' with
        | negative =>
          have hlt := (Int.neg_neg_of_pos hpos').trans hpos
          exact congrArg some (Int.compare_eq_gt.mpr hlt).symm
        | positive => exact congrArg some hmagnitude

theorem Denotes.le_iff {x y : Float} {a b : Int} (hx : Denotes x a) (hy : Denotes y b) :
    x ≤ y ↔ a ≤ b := by
  change (decide (x.toModel.unpack.le y.toModel.unpack)) = true ↔ _
  rw [decide_eq_true_iff, UnpackedFloat.le, hx.compare_eq hy]
  exact Int.isLE_compare

theorem ofInt_le_ofInt_iff {i j : Int} (hi : i.natAbs < 2 ^ 64) (hj : j.natAbs < 2 ^ 64) :
    Float.ofInt i ≤ Float.ofInt j ↔ nearest i ≤ nearest j := by
  rw [(denotes_ofInt hi).le_iff (denotes_ofInt hj)]
  omega

end HygienicScheme.Decimal
