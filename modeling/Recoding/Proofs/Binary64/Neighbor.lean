import Recoding.Binary64.Neighbor
import Recoding.Proofs.Binary64.Arithmetic

/-!
# Neighbours and exact values

A double is determined by its sign and its magnitude, so the step to its neighbour is a step of
the magnitude. One such step is enough to leave a double that was rounded on the other side of
the exact result.
-/

namespace Recoding.Binary64

open Float.Model Float.Model.UnpackedFloat

section
variable {x : Float}

/-! ## Signs and magnitudes -/

theorem negative_neg (s : Sign) : negative (-s) = !negative s := by
  cases s <;> rfl

theorem neg_number (h : magnitude x ≤ infiniteMagnitude) :
    isNegative (-x) = !isNegative x ∧ magnitude (-x) = magnitude x := by
  obtain ⟨u, hu, hneg, hpacked⟩ := exists_signed h
  have hx : -x = packed (u (-signOf x)) := by
    rw [← hneg, ← hu]
    rfl
  rw [hx, ← signOf_eq x, ← negative_neg]
  exact hpacked (-signOf x)

theorem exists_toBits {n : Nat} (hlt : n < 2 ^ 64) (h : n % 2 ^ 63 ≤ infiniteMagnitude) :
    ∃ x : Float, x.toModel.toBits = UInt64.ofNat n := by
  have hinf : infiniteMagnitude = 2047 * 2 ^ 52 := rfl
  have hbits : (UInt64.ofNat n).toBitVec.toNat = n := UInt64.toNat_ofNat_of_lt hlt
  have hvalid : Format.binary64.Valid (UInt64.ofNat n).toBitVec := by
    refine ⟨fun hexponent hmantissa => absurd ?_ hmantissa⟩
    have hexponent : n % 2 ^ 63 / 2 ^ 52 = 2047 := by
      rw [← hbits, ← toNat_unpackExponent, hexponent]
      rfl
    apply BitVec.eq_of_toNat_eq
    rw [toNat_unpackMantissa, hbits]
    show n % 2 ^ 52 = 0
    omega
  exact ⟨⟨⟨_, hvalid⟩⟩, rfl⟩

theorem number_ofMagnitude (s : Bool) {m : Nat} (h : m ≤ infiniteMagnitude) :
    isNegative (ofMagnitude s m) = s ∧ magnitude (ofMagnitude s m) = m := by
  have hinf : infiniteMagnitude = 2047 * 2 ^ 52 := rfl
  obtain ⟨n, hn⟩ : ∃ n, (if s then 2 ^ 63 + m else m) = n := ⟨_, rfl⟩
  have hlt : n < 2 ^ 64 := by
    rw [← hn]
    split_ifs <;> omega
  have hmod : n % 2 ^ 63 = m := by
    rw [← hn]
    split_ifs <;> omega
  obtain ⟨x, hx⟩ := exists_toBits hlt (hmod.trans_le h)
  have hbits : x.toBits.toNat = n := by
    have htoBits : x.toBits = UInt64.ofNat n := hx
    rw [htoBits]
    exact UInt64.toNat_ofNat_of_lt hlt
  have hmagnitude : magnitude x = m := by
    unfold magnitude
    rw [hbits, hmod]
  have hsign : isNegative x = s := by
    unfold isNegative
    rw [hbits, ← hn]
    cases s
    · exact decide_eq_false (by simp; omega)
    · exact decide_eq_true (by simp)
  -- a double is made from bits by unpacking and packing them
  have hof : ofMagnitude s m = packed x.toModel.unpack := by
    show packed (UnpackedFloat.unpack Format.binary64 (UInt64.ofNat _).toBitVec) = _
    rw [hn, ← hx]
    rfl
  obtain ⟨u, hu, -, hpacked⟩ := exists_signed (hmagnitude.trans_le h)
  obtain ⟨hpackedSign, hpackedMagnitude⟩ := hpacked (signOf x)
  rw [hof, hu, hpackedSign, hpackedMagnitude, signOf_eq]
  exact ⟨hsign, hmagnitude⟩

/-! ## Neighbours -/

theorem nextUp_finite (h : Finite x) :
    isNegative (nextUp x) = false ∧ magnitude (nextUp x) = magnitude x + 1 := by
  have hnan : x.isNaN = false := isNaN_eq_false.mpr h.finite.le
  have hnext : nextUp x = ofMagnitude false (magnitude x + 1) := by
    unfold nextUp
    simp only [hnan, h.sign, beq_false_of_ne h.finite.ne, Bool.and_false, Bool.false_or,
      Bool.false_eq_true, if_false]
    split_ifs with hzero
    · rw [hzero]
    · rfl
  rw [hnext]
  exact number_ofMagnitude false h.finite

theorem nextDown_pos (h : Finite x) (hx : 0 < magnitude x) :
    Finite (nextDown x) ∧ magnitude (nextDown x) = magnitude x - 1 := by
  obtain ⟨hsign, hmagnitude⟩ := neg_number h.finite.le
  have hnan : (-x).isNaN = false := isNaN_eq_false.mpr (hmagnitude.trans_le h.finite.le)
  have hnext : nextUp (-x) = ofMagnitude true (magnitude x - 1) := by
    unfold nextUp
    rw [hnan, hsign, h.sign, hmagnitude, if_neg hx.ne']
    rfl
  have hlt : magnitude x - 1 < infiniteMagnitude := (Nat.sub_le _ _).trans_lt h.finite
  obtain ⟨hone, hunit⟩ := number_ofMagnitude true hlt.le
  obtain ⟨hnegated, hsame⟩ := neg_number (hunit.trans_le hlt.le)
  rw [hone] at hnegated
  rw [hunit] at hsame
  unfold nextDown
  rw [hnext]
  exact ⟨⟨hnegated, hsame.trans_lt hlt⟩, hsame⟩

end

/-! ## Rounding errors -/

/-- The distance from a magnitude to the next one is a power of two. -/
theorem units_succ (m : Nat) : units (m + 1) = units m + 2 ^ (m / 2 ^ 52 - 1) := by
  have hm := binade_significand m
  have hnormal := significand_normal m
  generalize m / 2 ^ 52 - 1 = k at hm hnormal ⊢
  have hown : units m = significand m * 2 ^ k := by
    conv_lhs => rw [← hm]
    exact units_add (significand_lt m) hnormal
  rcases lt_or_eq_of_le (show significand m + 1 ≤ 2 ^ 53 from significand_lt m) with hlt | hcarry
  · have hnext : m + 1 = k * 2 ^ 52 + (significand m + 1) := by omega
    rw [hnext, units_add hlt (hnormal.imp_right (by omega)), hown]
    ring
  · have hnext : m + 1 = (k + 1) * 2 ^ 52 + 2 ^ 52 := by omega
    have hsum : units m + 2 ^ k = (significand m + 1) * 2 ^ k := by
      rw [hown]
      ring
    rw [hnext, units_add (by decide) (Or.inr le_rfl), hsum, hcarry]
    ring

theorem units_strictMono : StrictMono units :=
  strictMono_nat_of_lt_succ fun m => by
    have hstep := units_succ m
    have hpos := Nat.two_pow_pos (m / 2 ^ 52 - 1)
    omega

/-- The unit in the last place is the distance to the next double away from zero. -/
theorem ulp_finite {x : Float} (h : magnitude x < infiniteMagnitude) : Finite (ulp x) ∧
    units (magnitude (ulp x)) = 2 ^ (magnitude x / 2 ^ 52 - 1) := by
  have hinf : infiniteMagnitude = 2047 * 2 ^ 52 := rfl
  have hnan : x.isNaN = false := isNaN_eq_false.mpr h.le
  have hulp : ∃ u, ulp x = ofMagnitude false u ∧ u < infiniteMagnitude ∧
      units u = 2 ^ (magnitude x / 2 ^ 52 - 1) := by
    have hbiased : magnitude x / 2 ^ 52 < 2047 := Nat.div_lt_of_lt_mul (by omega)
    unfold ulp
    simp only [hnan, h.ne, Bool.false_eq_true, if_false]
    generalize magnitude x / 2 ^ 52 = biased at hbiased ⊢
    split_ifs with hnormal hzero
    · have hparts : (biased - 52) * 2 ^ 52 = (biased - 53) * 2 ^ 52 + 2 ^ 52 := by omega
      refine ⟨_, rfl, by omega, ?_⟩
      rw [hparts, units_add (by decide) (Or.inr le_rfl), ← pow_add]
      congr 1
      omega
    · exact ⟨1, rfl, by decide, by rw [hzero]; decide⟩
    · have hlt : 2 ^ (biased - 1) < 2 ^ 52 := Nat.pow_lt_pow_right (by decide) (by omega)
      have hexact := units_add (k := 0) (r := 2 ^ (biased - 1)) (by omega) (Or.inl rfl)
      rw [Nat.zero_mul, Nat.zero_add, pow_zero, Nat.mul_one] at hexact
      exact ⟨_, rfl, by omega, hexact⟩
  obtain ⟨u, hu, hlt, hunits⟩ := hulp
  obtain ⟨hsign, hmagnitude⟩ := number_ofMagnitude false hlt.le
  rw [hu, hmagnitude]
  exact ⟨⟨hsign, hmagnitude.trans_lt hlt⟩, hunits⟩

section
variable {a b k : Nat}

theorem units_le_of_lt (hb : 0 < b) (h : k < nearestMagnitude a b) :
    units k * b ≤ a * finest := by
  by_contra hlt
  have hle := nearestMagnitude_mono hb finest_pos (not_le.mp hlt).le
  rw [nearestMagnitude_units] at hle
  exact absurd hle (not_le.mpr h)

theorem le_units_of_lt (hb : 0 < b) (h : nearestMagnitude a b < k) :
    a * finest ≤ units k * b := by
  by_contra hlt
  have hle := nearestMagnitude_mono finest_pos hb (not_le.mp hlt).le
  rw [nearestMagnitude_units] at hle
  exact absurd hle (not_le.mpr h)

/-- The nearest double is at most a unit in the last place away from a quotient. -/
theorem nearestMagnitude_error (hb : 0 < b) :
    let m := nearestMagnitude a b
    let unit := 2 ^ (m / 2 ^ 52 - 1)
    a * finest ≤ (units m + unit) * b ∧ units m * b ≤ a * finest + unit * b := by
  have habove := le_units_of_lt hb (Nat.lt_succ_self (nearestMagnitude a b))
  rw [Nat.succ_eq_add_one, units_succ] at habove
  refine ⟨habove, ?_⟩
  cases hm : nearestMagnitude a b with
  | zero => simp [units_zero]
  | succ m =>
    have hbelow := units_le_of_lt hb (show m < nearestMagnitude a b by omega)
    have hunit : 2 ^ (m / 2 ^ 52 - 1) ≤ 2 ^ ((m + 1) / 2 ^ 52 - 1) :=
      Nat.pow_le_pow_right (by decide) (Nat.sub_le_sub_right (Nat.div_le_div_right m.le_succ) 1)
    rw [units_succ, Nat.add_mul]
    exact Nat.add_le_add hbelow (Nat.mul_le_mul_right b hunit)

end

/-! ## Values -/

theorem scaled_eq (n : Nat) {e : Int} {p q : Nat} (h : e = (p : Int) - q) :
    scaled n e = n * 2 ^ p / 2 ^ q := by
  have htwo : (2 : ℚ) ≠ 0 := two_ne_zero
  cases e with
  | ofNat k =>
    obtain rfl : p = k + q := by
      rw [Int.ofNat_eq_natCast] at h
      omega
    unfold scaled
    rw [pow_add, ← mul_assoc, mul_div_cancel_right₀ _ (pow_ne_zero q htwo)]
    push_cast
    rfl
  | negSucc k =>
    obtain rfl : q = p + (k + 1) := by
      rw [Int.negSucc_eq] at h
      omega
    simp only [scaled]
    rw [Rat.mkRat_eq_div, pow_add (2 : ℚ) p, mul_comm (n : ℚ),
      mul_div_mul_left _ _ (pow_ne_zero p htwo)]
    push_cast
    rfl

theorem magnitudeValue_eq (m : Nat) : magnitudeValue m = units m / finest := by
  unfold magnitudeValue units finest
  rw [scaled_eq _ (exponent_eq m)]
  push_cast
  rfl

theorem toRat?_eq {x : Float} (h : magnitude x < infiniteMagnitude) : toRat? x =
    some (if isNegative x then -((units (magnitude x) : ℚ) / finest)
      else (units (magnitude x) : ℚ) / finest) := by
  unfold toRat?
  rw [if_pos h, magnitudeValue_eq]

end Recoding.Binary64
