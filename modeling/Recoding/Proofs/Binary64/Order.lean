import Recoding.Binary64.Exact
import Mathlib.Tactic

/-!
# The order of doubles

Up to the sign of zero, doubles that are numbers are ordered by their magnitudes with their signs.
So the total order refines the comparison of numbers.
-/

namespace Recoding.Binary64

open Float.Model Float.Model.UnpackedFloat

def signOf (x : Float) : Sign := if isNegative x then .negative else .positive

/-- The magnitude with the sign, which both zeros share. -/
def weight (x : Float) : Int := if isNegative x then -(magnitude x : Int) else magnitude x

section
variable (x : Float)

theorem toBits_lt : x.toBits.toNat < 2 ^ 64 := x.toBits.toNat_lt

theorem magnitude_lt : magnitude x < 2 ^ 63 := Nat.mod_lt _ (by decide)

theorem toNat_unpackMantissa (b : BitVec 64) :
    (@unpackMantissa Format.binary64 b).toNat = b.toNat % 2 ^ 52 := by
  unfold unpackMantissa
  rw [BitVec.toNat_cast, BitVec.extractLsb_toNat]
  simp

theorem toNat_unpackExponent (b : BitVec 64) :
    (@unpackExponent Format.binary64 b).toNat = b.toNat % 2 ^ 63 / 2 ^ 52 := by
  unfold unpackExponent
  rw [BitVec.toNat_cast, BitVec.extractLsb_toNat, Nat.shiftRight_eq_div_pow]
  simp
  omega

theorem unpackMantissa_toNat : (@unpackMantissa Format.binary64
    x.toModel.toBits.toBitVec).toNat = magnitude x % 2 ^ 52 := by
  have hbits : x.toModel.toBits.toBitVec.toNat = x.toBits.toNat := rfl
  rw [toNat_unpackMantissa, hbits]
  unfold magnitude
  omega

theorem unpackExponent_toNat : (@unpackExponent Format.binary64
    x.toModel.toBits.toBitVec).toNat = magnitude x / 2 ^ 52 :=
  toNat_unpackExponent x.toModel.toBits.toBitVec

theorem unpackSign_eq : Sign.ofBitVec (@unpackSign Format.binary64
    x.toModel.toBits.toBitVec) = signOf x := by
  have hbits : x.toModel.toBits.toBitVec.toNat = x.toBits.toNat := rfl
  have hlt := toBits_lt x
  have hsign : (@unpackSign Format.binary64 x.toModel.toBits.toBitVec).toNat =
      x.toBits.toNat / 2 ^ 63 := by
    unfold unpackSign
    rw [BitVec.toNat_cast, BitVec.extractLsb_toNat, hbits, Nat.shiftRight_eq_div_pow]
    simp
    omega
  unfold Sign.ofBitVec signOf isNegative
  by_cases h : 2 ^ 63 ≤ x.toBits.toNat
  · have hone : x.toBits.toNat / 2 ^ 63 = 1 := by omega
    rw [if_neg, if_pos (by simpa using h)]
    intro hzero
    rw [hzero, hone] at hsign
    cases hsign
  · have hzero : x.toBits.toNat / 2 ^ 63 = 0 := by omega
    rw [if_pos, if_neg (by simpa using h)]
    exact BitVec.eq_of_toNat_eq (by rw [hsign, hzero]; rfl)

theorem unpack_cases :
    (magnitude x = 0 ∧ x.toModel.unpack = .zero (signOf x)) ∨
    (∃ h : 0 < significand (magnitude x), 0 < magnitude x ∧ magnitude x < infiniteMagnitude ∧
      x.toModel.unpack =
        .finite (signOf x) (significand (magnitude x)) (exponent (magnitude x)) h) ∨
    (magnitude x = infiniteMagnitude ∧ x.toModel.unpack = .infinity (signOf x)) ∨
    (infiniteMagnitude < magnitude x ∧ x.toModel.unpack = .notANumber) := by
  have hlt := magnitude_lt x
  have hmantissa := unpackMantissa_toNat x
  have hexponent := unpackExponent_toNat x
  have hzero : @unpackMantissa Format.binary64 x.toModel.toBits.toBitVec = 0#52 ↔
      magnitude x % 2 ^ 52 = 0 := by
    rw [← BitVec.toNat_inj, hmantissa]
    rfl
  have hones : @unpackExponent Format.binary64 x.toModel.toBits.toBitVec = -1#11 ↔
      magnitude x / 2 ^ 52 = 2047 := by
    rw [← BitVec.toNat_inj, hexponent]
    rfl
  have hsmall : @unpackExponent Format.binary64 x.toModel.toBits.toBitVec = 0#11 ↔
      magnitude x / 2 ^ 52 = 0 := by
    rw [← BitVec.toNat_inj, hexponent]
    rfl
  have hbias : (Format.binary64.exponentBias : Int) + (52 : Nat) = 1075 := by decide
  have himplicit : (1#1 ++ @unpackMantissa Format.binary64
      x.toModel.toBits.toBitVec).toNat = 2 ^ 52 + magnitude x % 2 ^ 52 := by
    rw [BitVec.toNat_append, ← Nat.shiftLeft_add_eq_or_of_lt (BitVec.isLt _), hmantissa]
    rfl
  unfold infiniteMagnitude
  rw [← unpackSign_eq x]
  by_cases h₁ : @unpackExponent Format.binary64 x.toModel.toBits.toBitVec = -1#11
  · have hexp := hones.mp h₁
    by_cases h₂ : @unpackMantissa Format.binary64 x.toModel.toBits.toBitVec = 0#52
    · have := hzero.mp h₂
      exact Or.inr (Or.inr (Or.inl ⟨by omega, (if_pos h₁).trans (if_pos h₂)⟩))
    · have := mt hzero.mpr h₂
      exact Or.inr (Or.inr (Or.inr ⟨by omega, (if_pos h₁).trans (if_neg h₂)⟩))
  have hexp := mt hones.mpr h₁
  by_cases h₃ : @unpackExponent Format.binary64 x.toModel.toBits.toBitVec = 0#11
  · have hnone := hsmall.mp h₃
    by_cases h₄ : @unpackMantissa Format.binary64 x.toModel.toBits.toBitVec = 0#52
    · have := hzero.mp h₄
      exact Or.inl ⟨by omega, (if_neg h₁).trans ((if_pos h₃).trans (dif_pos h₄))⟩
    · have := mt hzero.mpr h₄
      have hsignificand : significand (magnitude x) = magnitude x % 2 ^ 52 := if_pos hnone
      refine Or.inr (Or.inl ⟨by omega, by omega, by omega,
        (if_neg h₁).trans ((if_pos h₃).trans ((dif_neg h₄).trans ?_))⟩)
      rw [UnpackedFloat.finite.injEq]
      refine ⟨rfl, by rw [hmantissa, hsignificand], ?_⟩
      rw [hexponent, hbias, exponent, hnone]
      rfl
  · have hsome := mt hsmall.mpr h₃
    have hsignificand : significand (magnitude x) = 2 ^ 52 + magnitude x % 2 ^ 52 := if_neg hsome
    refine Or.inr (Or.inl ⟨by omega, by omega, by omega,
      (if_neg h₁).trans ((if_neg h₃).trans ?_)⟩)
    rw [UnpackedFloat.finite.injEq]
    refine ⟨rfl, by rw [himplicit, hsignificand], ?_⟩
    rw [hexponent, hbias, exponent]
    omega

end

theorem signOf_cases (x : Float) :
    isNegative x = true ∧ signOf x = .negative ∨ isNegative x = false ∧ signOf x = .positive := by
  unfold signOf
  cases isNegative x
  · exact Or.inr ⟨rfl, rfl⟩
  · exact Or.inl ⟨rfl, rfl⟩

theorem isNaN_iff {x : Float} : x.isNaN = true ↔ infiniteMagnitude < magnitude x := by
  have hmodel : x.isNaN = x.toModel.unpack.isNaN := rfl
  rw [hmodel]
  have hpos : 0 < infiniteMagnitude := by decide
  rcases unpack_cases x with ⟨h, hx⟩ | ⟨_, -, h, hx⟩ | ⟨h, hx⟩ | ⟨h, hx⟩ <;> rw [hx]
  · exact ⟨fun hn => absurd hn Bool.false_ne_true, fun hlt => by omega⟩
  · exact ⟨fun hn => absurd hn Bool.false_ne_true, fun hlt => by omega⟩
  · exact ⟨fun hn => absurd hn Bool.false_ne_true, fun hlt => by omega⟩
  · exact ⟨fun _ => h, fun _ => rfl⟩

theorem isInf_iff {x : Float} : x.isInf = true ↔ magnitude x = infiniteMagnitude := by
  have hmodel : x.isInf = x.toModel.unpack.isInf := rfl
  rw [hmodel]
  have hpos : 0 < infiniteMagnitude := by decide
  rcases unpack_cases x with ⟨h, hx⟩ | ⟨_, -, h, hx⟩ | ⟨h, hx⟩ | ⟨h, hx⟩ <;> rw [hx]
  · exact ⟨fun hi => absurd hi Bool.false_ne_true, fun he => by omega⟩
  · exact ⟨fun hi => absurd hi Bool.false_ne_true, fun he => absurd he h.ne⟩
  · exact ⟨fun _ => h, fun _ => rfl⟩
  · exact ⟨fun hi => absurd hi Bool.false_ne_true, fun he => absurd he h.ne'⟩

theorem isFinite_iff {x : Float} : x.isFinite = true ↔ magnitude x < infiniteMagnitude := by
  have hmodel : x.isFinite = x.toModel.unpack.isFinite := rfl
  rw [hmodel]
  have hpos : 0 < infiniteMagnitude := by decide
  rcases unpack_cases x with ⟨h, hx⟩ | ⟨_, -, h, hx⟩ | ⟨h, hx⟩ | ⟨h, hx⟩ <;> rw [hx]
  · exact ⟨fun _ => by omega, fun _ => rfl⟩
  · exact ⟨fun _ => h, fun _ => rfl⟩
  · exact ⟨fun hf => absurd hf Bool.false_ne_true, fun hlt => absurd h hlt.ne⟩
  · exact ⟨fun hf => absurd hf Bool.false_ne_true, fun hlt => absurd h.le (not_le.mpr hlt)⟩

/-- Greater magnitudes have greater exponents, or the same exponent and greater significands. -/
theorem compare_magnitude (m n : Nat) :
    (compare (exponent m) (exponent n)).then (compare (significand m) (significand n)) =
      compare m n := by
  have hm := Nat.div_add_mod m (2 ^ 52)
  have hn := Nat.div_add_mod n (2 ^ 52)
  have hml := Nat.mod_lt m (show 2 ^ 52 > 0 by decide)
  have hnl := Nat.mod_lt n (show 2 ^ 52 > 0 by decide)
  rcases lt_trichotomy m n with hlt | rfl | hgt
  · rw [compare_lt_iff_lt.mpr hlt, Ordering.then_eq_lt, compare_lt_iff_lt, compare_eq_iff_eq,
      compare_lt_iff_lt]
    unfold exponent significand
    split_ifs <;> omega
  · simp
  · rw [compare_gt_iff_gt.mpr hgt, Ordering.then_eq_gt, compare_gt_iff_gt, compare_eq_iff_eq,
      compare_gt_iff_gt]
    unfold exponent significand
    split_ifs <;> omega

theorem le_iff_unpack {x y : Float} : x ≤ y ↔
    (x.toModel.unpack.compare y.toModel.unpack).any (·.isLE) = true := by
  change x.le y = true ↔ _
  rw [Float.le, decide_eq_true_iff]
  exact Iff.rfl

theorem significand_pos {m : Nat} (h : 0 < m) : 0 < significand m := by
  unfold significand
  split_ifs <;> omega

theorem compare_natCast (m n : Nat) : compare (m : Int) (n : Int) = compare m n := by
  rcases lt_trichotomy m n with h | rfl | h
  · rw [compare_lt_iff_lt.mpr h, compare_lt_iff_lt]
    exact_mod_cast h
  · simp
  · rw [compare_gt_iff_gt.mpr h, compare_gt_iff_gt]
    exact_mod_cast h

theorem compare_neg (a b : Int) : compare (-a) (-b) = (compare a b).swap := by
  rcases lt_trichotomy a b with h | rfl | h
  · rw [compare_lt_iff_lt.mpr h, compare_gt_iff_gt.mpr (by omega)]
    rfl
  · simp
  · rw [compare_gt_iff_gt.mpr h, compare_lt_iff_lt.mpr (by omega)]
    rfl

theorem compare_unpack {x y : Float} (hx : magnitude x ≤ infiniteMagnitude)
    (hy : magnitude y ≤ infiniteMagnitude) :
    x.toModel.unpack.compare y.toModel.unpack = some (compare (weight x) (weight y)) := by
  have hpos : 0 < infiniteMagnitude := by decide
  unfold weight
  rcases unpack_cases x with ⟨hmx, ux⟩ | ⟨_, hmx, hmx', ux⟩ | ⟨hmx, ux⟩ | ⟨hmx, -⟩
  case inr.inr.inr => omega
  all_goals
    rcases unpack_cases y with ⟨hmy, uy⟩ | ⟨_, hmy, hmy', uy⟩ | ⟨hmy, uy⟩ | ⟨hmy, -⟩
    case inr.inr.inr => omega
    all_goals
      rcases signOf_cases x with ⟨nx, sx⟩ | ⟨nx, sx⟩ <;>
        rcases signOf_cases y with ⟨ny, sy⟩ | ⟨ny, sy⟩ <;>
        rw [ux, uy, sx, sy, nx, ny] <;>
        dsimp only [UnpackedFloat.compare] <;>
        simp only [compare_magnitude, if_true, Bool.false_eq_true, if_false, Option.some.injEq]
      -- either both are finite and of one sign, or the order is plain
      all_goals
        first
        | exact (compare_lt_iff_lt.mpr (by omega)).symm
        | exact (compare_gt_iff_gt.mpr (by omega)).symm
        | exact (compare_eq_iff_eq.mpr (by omega)).symm
        | exact (compare_natCast _ _).symm
        | rw [compare_neg, compare_natCast]

theorem compare_nan {x y : Float}
    (h : infiniteMagnitude < magnitude x ∨ infiniteMagnitude < magnitude y) :
    x.toModel.unpack.compare y.toModel.unpack = none := by
  have hnan : ∀ z : Float, infiniteMagnitude < magnitude z → z.toModel.unpack = .notANumber := by
    intro z hz
    rcases unpack_cases z with ⟨hm, -⟩ | ⟨_, -, hm, -⟩ | ⟨hm, -⟩ | ⟨-, hu⟩
    · omega
    · omega
    · omega
    · exact hu
  rcases h with h | h
  · rw [hnan x h]
    rfl
  · rw [hnan y h]
    cases x.toModel.unpack <;> rfl

theorem le_iff {x y : Float} : x ≤ y ↔
    magnitude x ≤ infiniteMagnitude ∧ magnitude y ≤ infiniteMagnitude ∧ weight x ≤ weight y := by
  rw [le_iff_unpack]
  by_cases h : magnitude x ≤ infiniteMagnitude ∧ magnitude y ≤ infiniteMagnitude
  · rw [compare_unpack h.1 h.2, Option.any_some, Ordering.isLE_iff_ne_gt,
      compare_gt_iff_gt]
    simp [h.1, h.2]
  · rw [compare_nan (by omega)]
    simp only [Option.any_none, Bool.false_eq_true, false_iff]
    exact fun hle => h ⟨hle.1, hle.2.1⟩

theorem lt_iff {x y : Float} : x < y ↔
    magnitude x ≤ infiniteMagnitude ∧ magnitude y ≤ infiniteMagnitude ∧ weight x < weight y := by
  have hunpack : x < y ↔
      (x.toModel.unpack.compare y.toModel.unpack == some .lt) = true := by
    change x.lt y = true ↔ _
    rw [Float.lt, decide_eq_true_iff]
    exact Iff.rfl
  rw [hunpack, beq_iff_eq]
  by_cases h : magnitude x ≤ infiniteMagnitude ∧ magnitude y ≤ infiniteMagnitude
  · rw [compare_unpack h.1 h.2, Option.some.injEq, compare_lt_iff_lt]
    simp [h.1, h.2]
  · rw [compare_nan (by omega)]
    simp only [reduceCtorEq, false_iff]
    exact fun hlt => h ⟨hlt.1, hlt.2.1⟩

theorem isNaN_eq_false {x : Float} : x.isNaN = false ↔ magnitude x ≤ infiniteMagnitude := by
  rw [← Bool.not_eq_true, isNaN_iff, not_lt]

theorem le_trans {x y z : Float} (h : x ≤ y) (k : y ≤ z) : x ≤ z := by
  rw [le_iff] at *
  exact ⟨h.1, k.2.1, h.2.2.trans k.2.2⟩

theorem weight_le_of_orderKey {x y : Float} (h : orderKey x ≤ orderKey y) :
    weight x ≤ weight y := by
  unfold orderKey weight at *
  split_ifs at * <;> omega

/-- What the total order puts first is at most as great, if both are numbers. -/
theorem le_of_orderKey {x y : Float} (hx : x.isNaN = false) (hy : y.isNaN = false)
    (h : orderKey x ≤ orderKey y) : x ≤ y :=
  le_iff.mpr ⟨isNaN_eq_false.mp hx, isNaN_eq_false.mp hy, weight_le_of_orderKey h⟩

/-- A number at most as great comes first in the total order, unless it is the other zero. -/
theorem orderKey_le {x y : Float} (h : x ≤ y) (hs : isNegative y = true → isNegative x = true) :
    orderKey x ≤ orderKey y := by
  have hle := (le_iff.mp h).2.2
  unfold orderKey weight at *
  split_ifs at * with hx hy <;> first | omega | exact absurd (hs ‹_›) ‹_›

end Recoding.Binary64
