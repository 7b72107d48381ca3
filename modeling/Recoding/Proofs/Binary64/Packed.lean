import Recoding.Proofs.Binary64.Nearest
import Recoding.Proofs.Binary64.Order

/-!
# Packed doubles

Results of operations are rounded by dropping bits of a mantissa and are packed then. What is
packed has the magnitude nearest to the exact result, up to infinity.
-/

namespace Recoding.Binary64

open Float.Model Float.Model.UnpackedFloat

/-! ## Mantissas with residual bits -/

/-- A mantissa with its residual bits stands for a quotient. -/
structure StandsFor (em : ExtendedMantissa) (a b : Nat) : Prop where
  mantissa : em.mantissa = a / b
  roundBit : em.roundBit = decide (b ≤ 2 * (a % b))
  stickyBit : em.stickyBit = decide (2 * (a % b) % b ≠ 0)

section
variable {em : ExtendedMantissa} {a b : Nat}

theorem StandsFor.roundedMantissa (hb : 0 < b) (h : StandsFor em a b) :
    em.roundedMantissa = roundHalfEven a b := by
  obtain ⟨mantissa, roundBit, stickyBit⟩ := em
  obtain ⟨rfl, rfl, rfl⟩ := h
  have hmod : a % b < b := Nat.mod_lt a hb
  unfold ExtendedMantissa.roundedMantissa roundHalfEven
  dsimp only
  rcases lt_trichotomy (2 * (a % b)) b with hlt | heq | hgt
  · have hround : ¬b ≤ 2 * (a % b) := by omega
    rw [if_pos (Or.inl hlt), decide_eq_false hround]
    cases decide (2 * (a % b) % b ≠ 0) <;> rfl
  · have hround : b ≤ 2 * (a % b) := by omega
    have hsticky : ¬2 * (a % b) % b ≠ 0 := by rw [heq, Nat.mod_self]; simp
    rw [decide_eq_true hround, decide_eq_false hsticky]
    show a / b + a / b % 2 = _
    split_ifs <;> omega
  · have hround : b ≤ 2 * (a % b) := by omega
    have hsticky : 2 * (a % b) % b ≠ 0 := by
      rw [Nat.mod_eq_sub_mod hround, Nat.mod_eq_of_lt (by omega)]
      omega
    rw [decide_eq_true hround, decide_eq_true hsticky, if_neg (by omega)]
    rfl

theorem StandsFor.shiftRightOne (hb : 0 < b) (h : StandsFor em a b) :
    StandsFor em.shiftRightOne a (b * 2) := by
  have hmod : a % b < b := Nat.mod_lt a hb
  have hmul : a % (b * 2) = a % b + b * (a / b % 2) := Nat.mod_mul
  refine ⟨?_, ?_, ?_⟩
  · show em.mantissa / 2 = _
    rw [h.mantissa, Nat.div_div_eq_div_mul]
  · show (em.mantissa % 2 != 0) = _
    rw [h.mantissa, hmul]
    rcases Nat.mod_two_eq_zero_or_one (a / b) with hbit | hbit <;> rw [hbit]
    · exact (decide_eq_false (by omega)).symm
    · exact (decide_eq_true (by omega)).symm
  · show (em.roundBit || em.stickyBit) = _
    have hdouble : 2 * (a % (b * 2)) % (b * 2) = 2 * (a % b) := by
      rw [mul_comm b 2, Nat.mul_mod_mul_left, mul_comm 2 b, Nat.mod_mul_right_mod]
    rw [h.roundBit, h.stickyBit, hdouble, ← Bool.decide_or]
    refine decide_eq_decide.mpr ⟨?_, fun hne => ?_⟩
    · rintro (hround | hsticky) hzero
      · omega
      · rw [hzero, Nat.zero_mod] at hsticky
        exact hsticky rfl
    · rcases lt_or_ge (2 * (a % b)) b with hlt | hge
      · rw [Nat.mod_eq_of_lt hlt]
        exact Or.inr hne
      · exact Or.inl hge

theorem StandsFor.shiftRight (hb : 0 < b) (h : StandsFor em a b) (n : Nat) :
    StandsFor (em >>> n) a (b * 2 ^ n) := by
  show StandsFor (n.repeat ExtendedMantissa.shiftRightOne em) a _
  induction n with
  | zero =>
    rw [pow_zero, mul_one]
    exact h
  | succ n ih =>
    rw [pow_succ, ← mul_assoc]
    exact ih.shiftRightOne (Nat.mul_pos hb (Nat.two_pow_pos n))

theorem standsFor_exact (m : Nat) :
    StandsFor (ExtendedMantissa.ofMantissaAndAccuracy m .exact) m 1 := by
  refine ⟨?_, ?_, ?_⟩ <;> simp [ExtendedMantissa.ofMantissaAndAccuracy, Nat.mod_one]

theorem standsFor_fraction (a : Nat) (hb : 0 < b) :
    StandsFor (ExtendedMantissa.ofMantissaAndAccuracy (a / b) (accuracyOfFraction (a % b) b))
      a b := by
  have hmod : a % b < b := Nat.mod_lt a hb
  unfold accuracyOfFraction
  split_ifs with hzero
  · refine ⟨rfl, ?_, ?_⟩ <;> rw [hzero]
    · exact (decide_eq_false (by omega)).symm
    · simp [ExtendedMantissa.ofMantissaAndAccuracy]
  · rcases lt_trichotomy (2 * (a % b)) b with hlt | heq | hgt
    · rw [compare_lt_iff_lt.mpr hlt]
      refine ⟨rfl, (decide_eq_false (by omega)).symm, ?_⟩
      rw [Nat.mod_eq_of_lt hlt]
      exact (decide_eq_true (by omega)).symm
    · rw [compare_eq_iff_eq.mpr heq]
      refine ⟨rfl, (decide_eq_true (by omega)).symm, ?_⟩
      rw [heq, Nat.mod_self]
      rfl
    · rw [compare_gt_iff_gt.mpr hgt]
      refine ⟨rfl, (decide_eq_true (by omega)).symm, ?_⟩
      rw [Nat.mod_eq_sub_mod hgt.le, Nat.mod_eq_of_lt (by omega)]
      exact (decide_eq_true (by omega)).symm

end

/-! ## Packing -/

/-- The double into which an unpacked one is packed. -/
def packed (u : UnpackedFloat) : Float := .ofModel (pack u)

theorem toBits_packed (u : UnpackedFloat) :
    (packed u).toBits.toNat = (UnpackedFloat.pack Format.binary64 u).toNat := rfl

theorem toNat_packComponents (s : Sign) (e : BitVec 11) (m : BitVec 52) :
    (packComponents Format.binary64 s e m).toNat =
      s.toBitVec.toNat * 2 ^ 63 + (e.toNat * 2 ^ 52 + m.toNat) := by
  have hinner : (s.toBitVec ++ e).toNat = s.toBitVec.toNat * 2 ^ 11 + e.toNat := by
    rw [BitVec.toNat_append, ← Nat.shiftLeft_add_eq_or_of_lt e.isLt, Nat.shiftLeft_eq]
  have houter : (s.toBitVec ++ e ++ m).toNat = (s.toBitVec ++ e).toNat * 2 ^ 52 + m.toNat := by
    rw [BitVec.toNat_append, ← Nat.shiftLeft_add_eq_or_of_lt m.isLt, Nat.shiftLeft_eq]
  have hall : (packComponents Format.binary64 s e m).toNat = (s.toBitVec ++ e ++ m).toNat := rfl
  rw [hall, houter, hinner]
  ring

def negative : Sign → Bool
  | .negative => true
  | .positive => false

theorem packed_of_toNat {u : UnpackedFloat} {s : Sign} {n : Nat} (hn : n < 2 ^ 63)
    (h : (UnpackedFloat.pack Format.binary64 u).toNat = s.toBitVec.toNat * 2 ^ 63 + n) :
    isNegative (packed u) = negative s ∧ magnitude (packed u) = n := by
  unfold isNegative magnitude
  rw [toBits_packed, h]
  cases s with
  | negative =>
    have hone : Sign.negative.toBitVec.toNat = 1 := rfl
    rw [hone]
    exact ⟨decide_eq_true (by omega), by omega⟩
  | positive =>
    have hzero : Sign.positive.toBitVec.toNat = 0 := rfl
    rw [hzero]
    exact ⟨decide_eq_false (by omega), by omega⟩

theorem packed_zero (s : Sign) :
    isNegative (packed (.zero s)) = negative s ∧ magnitude (packed (.zero s)) = 0 :=
  packed_of_toNat (by decide) (toNat_packComponents s 0 0)

theorem packed_infinity (s : Sign) : isNegative (packed (.infinity s)) = negative s ∧
    magnitude (packed (.infinity s)) = infiniteMagnitude :=
  packed_of_toNat (by decide) (toNat_packComponents s (-1#11) 0)

theorem packed_finite (s : Sign) {m k : Nat} (hm : 0 < m) (hlt : m < 2 ^ 53)
    (hk : k = 0 ∨ 2 ^ 52 ≤ m) {e : Int} (he : e = (k : Int) - depth) :
    isNegative (packed (.finite s m e hm)) = negative s ∧
      magnitude (packed (.finite s m e hm)) =
        min (k * 2 ^ 52 + m) infiniteMagnitude := by
  have hdepth := depth_eq
  have hbiased : (e + (Format.binary64.exponentBias : Int) +
      Format.binary64.mantissaBitsWithoutImplicit).toNat = k + 1 := by
    have hbias : (Format.binary64.exponentBias : Int) = 1023 := by decide
    have hbits : (Format.binary64.mantissaBitsWithoutImplicit : Int) = 52 := rfl
    omega
  have hpack : UnpackedFloat.pack Format.binary64 (.finite s m e hm) =
      if 2 ^ 11 ≤ k + 1 + 1 then packedInfinity Format.binary64 s
      else if m.log2 + 1 = 53 then
        packComponents Format.binary64 s (BitVec.ofNat 11 (k + 1)) (BitVec.ofNat 52 m)
      else packComponents Format.binary64 s 0#11 (BitVec.ofNat 52 m) := by
    unfold UnpackedFloat.pack
    rw [hbiased]
    rfl
  by_cases hover : 2 ^ 11 ≤ k + 1 + 1
  · rw [if_pos hover] at hpack
    have hmin : min (k * 2 ^ 52 + m) infiniteMagnitude = infiniteMagnitude := by
      unfold infiniteMagnitude
      omega
    rw [hmin]
    refine packed_of_toNat (by decide) ?_
    rw [hpack]
    exact toNat_packComponents s (-1#11) 0
  rw [if_neg hover] at hpack
  unfold infiniteMagnitude
  by_cases hnormal : m.log2 + 1 = 53
  · rw [if_pos hnormal] at hpack
    have hlow : 2 ^ 52 ≤ m := by
      have := Nat.log2_self_le hm.ne'
      rwa [show m.log2 = 52 by omega] at this
    refine packed_of_toNat (by omega) ?_
    rw [hpack, toNat_packComponents, BitVec.toNat_ofNat, BitVec.toNat_ofNat]
    omega
  · rw [if_neg hnormal] at hpack
    have hhigh : m < 2 ^ 52 := by
      by_contra hle
      exact hnormal (by rw [(Nat.log2_eq_iff hm.ne').mpr ⟨not_lt.mp hle, hlt⟩])
    refine packed_of_toNat (by omega) ?_
    have hzero : (0#11).toNat = 0 := rfl
    rw [hpack, toNat_packComponents, hzero, BitVec.toNat_ofNat]
    omega

/-! ## Rounding -/

theorem mantissa_ofMantissaAndAccuracy (m : Nat) (acc : Accuracy) :
    (ExtendedMantissa.ofMantissaAndAccuracy m acc).mantissa = m := by
  cases acc with
  | exact => rfl
  | inexact relative => cases relative <;> rfl

/-- What is left of rounding once the mantissa is rounded: a mantissa that has become too long is
shifted once more. -/
def carried (s : Sign) (r : Nat) (e : Int) : UnpackedFloat :=
  let shifted := shiftToTargetExponent Format.binary64 r e .exact
  if h : shifted.1.mantissa = 0 then .zero s
  else .finite s shifted.1.mantissa shifted.2 (Nat.pos_of_ne_zero h)

theorem roundWithAccuracy_eq (s : Sign) {m : Nat} {e : Int} {acc : Accuracy} {n : Nat}
    (hn : (max ((m.log2 : Int) + 1 + e - 53) (-1074) - e).toNat = n) :
    roundWithAccuracy Format.binary64 s m e acc =
      carried s (ExtendedMantissa.ofMantissaAndAccuracy m acc >>> n).roundedMantissa (e + n) := by
  subst hn
  rfl

theorem carried_eq (s : Sign) (r : Nat) (e : Int) {n : Nat}
    (hn : (max ((r.log2 : Int) + 1 + e - 53) (-1074) - e).toNat = n) {m : Nat}
    (hm : ((ExtendedMantissa.ofMantissaAndAccuracy r .exact) >>> n).mantissa = m) (hpos : 0 < m) :
    carried s r e = .finite s m (e + n) hpos := by
  subst hn hm
  exact dif_neg hpos.ne'

theorem packed_carried (s : Sign) {r k : Nat} (hr : r ≤ 2 ^ 53) (hk : k = 0 ∨ 2 ^ 52 ≤ r)
    {e : Int} (he : e = (k : Int) - depth) : isNegative (packed (carried s r e)) = negative s ∧
      magnitude (packed (carried s r e)) = min (k * 2 ^ 52 + r) infiniteMagnitude := by
  have hdepth := depth_eq
  rcases Nat.eq_zero_or_pos r with rfl | hpos
  · obtain rfl : k = 0 := by omega
    obtain rfl : e = -1074 := by omega
    exact packed_zero s
  · rcases hr.lt_or_eq with hlt | rfl
    · have hlog : r.log2 < 53 := (Nat.log2_lt hpos.ne').mpr hlt
      rw [carried_eq s r e (n := 0) (by omega) rfl hpos]
      exact packed_finite s hpos hlt hk (by omega)
    · rw [carried_eq s (2 ^ 53) e (n := 1) (m := 2 ^ 52) (by rw [Nat.log2_two_pow]; omega) rfl
        (by decide)]
      have hsum : (k + 1) * 2 ^ 52 + 2 ^ 52 = k * 2 ^ 52 + 2 ^ 53 := by ring
      rw [← hsum]
      exact packed_finite s (by decide) (by decide) (Or.inr le_rfl) (by omega)

/-- The double whose magnitude is nearest to a quotient, up to infinity. -/
structure IsNearest (x : Float) (s : Bool) (a b : Nat) : Prop where
  sign : isNegative x = s
  magnitude : magnitude x = min (nearestMagnitude a b) infiniteMagnitude

theorem isNearest_round (s : Sign) {m a b : Nat} {e : Int} {acc : Accuracy} (hb : 0 < b)
    (h : StandsFor (ExtendedMantissa.ofMantissaAndAccuracy m acc) a b)
    (he : e ≤ max ((m.log2 : Int) + 1 + e - 53) (-1074)) {i j : Nat} (hij : e = (i : Int) - j) :
    IsNearest (packed (roundWithAccuracy Format.binary64 s m e acc)) (negative s) (a * 2 ^ i)
      (b * 2 ^ j) := by
  have hdepth := depth_eq
  obtain ⟨k, hk⟩ := Int.eq_ofNat_of_zero_le
    (show 0 ≤ max ((m.log2 : Int) + 1 + e - 53) (-1074) + 1074 by omega)
  obtain ⟨n, hn⟩ := Int.eq_ofNat_of_zero_le (show 0 ≤ (k : Int) - 1074 - e by omega)
  have hmantissa : m = a / b := by rw [← h.mantissa, mantissa_ofMantissaAndAccuracy]
  have hlt : a < 2 ^ 53 * (b * 2 ^ n) := by
    have hm : a / b < 2 ^ (n + 53) := by
      rw [← hmantissa]
      exact Nat.lt_log2_self.trans_le (Nat.pow_le_pow_right (by decide) (by omega))
    calc a < 2 ^ (n + 53) * b := (Nat.div_lt_iff_lt_mul hb).mp hm
      _ = 2 ^ 53 * (b * 2 ^ n) := by ring
  have hle : k = 0 ∨ 2 ^ 52 * (b * 2 ^ n) ≤ a := by
    refine (Nat.eq_zero_or_pos k).imp_right fun hpos => ?_
    have hlog : m.log2 = n + 52 := by omega
    have hm : m ≠ 0 := by
      rintro rfl
      simp at hlog
    calc 2 ^ 52 * (b * 2 ^ n) = 2 ^ m.log2 * b := by rw [hlog]; ring
      _ ≤ m * b := Nat.mul_le_mul_right b (Nat.log2_self_le hm)
      _ ≤ a := by rw [hmantissa]; exact Nat.div_mul_le_self a b
  have hpos : 0 < b * 2 ^ n := Nat.mul_pos hb (Nat.two_pow_pos n)
  have hround : roundWithAccuracy Format.binary64 s m e acc =
      carried s (roundHalfEven a (b * 2 ^ n)) (e + n) := by
    rw [roundWithAccuracy_eq s (show _ = n by omega), (h.shiftRight hb n).roundedMantissa hpos]
  obtain ⟨hsign, hmagnitude⟩ := packed_carried s
    (roundHalfEven_le_of_le hpos hlt.le) (hle.imp_right (le_roundHalfEven hpos))
    (show e + n = (k : Int) - depth by omega)
  rw [hround]
  exact ⟨hsign, by rw [hmagnitude, nearestMagnitude_scaled hb (by omega) hlt hle]⟩

theorem log2_shiftLeft {a : Nat} (ha : 0 < a) (t : Nat) : (a <<< t).log2 = a.log2 + t := by
  have hpos : 0 < 2 ^ t := Nat.two_pow_pos t
  rw [Nat.shiftLeft_eq, Nat.log2_eq_iff (Nat.mul_pos ha hpos).ne', pow_add, add_right_comm, pow_add]
  exact ⟨Nat.mul_le_mul_right _ (Nat.log2_self_le ha.ne'),
    Nat.mul_lt_mul_of_pos_right Nat.lt_log2_self hpos⟩

theorem isNearest_roundMantissa (s : Sign) {a : Nat} (ha : 0 < a) {e : Int} {i j : Nat}
    (hij : e = (i : Int) - j) :
    IsNearest (packed (UnpackedFloat.round Format.binary64 s a e)) (negative s) (a * 2 ^ i)
      (2 ^ j) := by
  have hround : UnpackedFloat.round Format.binary64 s a e =
      let t := (e - max ((a.log2 : Int) + 1 + e - 53) (-1074)).toNat
      roundWithAccuracy Format.binary64 s (a <<< t) (e - t) .exact := rfl
  obtain ⟨t, ht⟩ : ∃ t, (e - max ((a.log2 : Int) + 1 + e - 53) (-1074)).toNat = t := ⟨_, rfl⟩
  have hnearest := isNearest_round s one_pos (standsFor_exact (a <<< t))
    (e := e - t) (by rw [log2_shiftLeft ha]; push_cast; omega) (i := i) (j := j + t) (by omega)
  rw [hround]
  dsimp only
  rw [ht]
  refine ⟨hnearest.sign, hnearest.magnitude.trans ?_⟩
  rw [Nat.shiftLeft_eq, one_mul, nearestMagnitude_congr (Nat.two_pow_pos _) (Nat.two_pow_pos j)]
  rw [pow_add]
  ring

theorem isNearest_normalize {a : Nat} (ha : 0 < a) {e : Int} {i j : Nat}
    (hij : e = (i : Int) - j) :
    IsNearest (packed (UnpackedFloat.normalize Format.binary64 a e .positive)) false (a * 2 ^ i)
      (2 ^ j) := by
  have hnormalize : UnpackedFloat.normalize Format.binary64 a e .positive =
      UnpackedFloat.round Format.binary64 .positive a e := by
    unfold UnpackedFloat.normalize
    rw [compare_gt_iff_gt.mpr (by exact_mod_cast ha)]
    rfl
  rw [hnormalize]
  exact isNearest_roundMantissa .positive ha hij

end Recoding.Binary64
