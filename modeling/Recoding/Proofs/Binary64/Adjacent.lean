import Recoding.Proofs.Binary64.Signed

/-!
# Neighbouring doubles are adjacent

No double lies strictly between a double and its neighbour, and the steps up and down undo each
other. On the bits of a double they count one further or one back, whatever the sign is, and the
unit in the last place is how far a step away from zero goes.
-/

namespace Recoding.Binary64

open Float.Model

def greatest : Float := ofMagnitude false (infiniteMagnitude - 1)

section
variable {x y : Float}

/-! ## Comparisons of weights -/

theorem beq_iff : (x == y) = true ↔
    magnitude x ≤ infiniteMagnitude ∧ magnitude y ≤ infiniteMagnitude ∧ weight x = weight y := by
  have hunpack : (x == y) =
      (x.toModel.unpack.compare y.toModel.unpack == some Ordering.eq) := rfl
  rw [hunpack, beq_iff_eq]
  by_cases h : magnitude x ≤ infiniteMagnitude ∧ magnitude y ≤ infiniteMagnitude
  · rw [compare_unpack h.1 h.2, Option.some.injEq, compare_eq_iff_eq]
    simp [h.1, h.2]
  · rw [compare_nan (by omega)]
    simp only [reduceCtorEq, false_iff]
    exact fun heq => h ⟨heq.1, heq.2.1⟩

theorem eq_infinity (s : Bool) (h : weight x = if s then -(infiniteMagnitude : Int)
    else infiniteMagnitude) : x = infinity s := by
  have hinf : infiniteMagnitude = 2047 * 2 ^ 52 := rfl
  have hmagnitude : magnitude x = infiniteMagnitude := by
    rw [← natAbs_weight x, h]
    cases s <;> simp
  have hsign : isNegative x = s := by
    unfold weight at h
    rw [hmagnitude, hinf] at h
    cases s <;> cases hx : isNegative x <;> simp [hx] at h ⊢
  obtain ⟨hsign', hmagnitude'⟩ := number_ofMagnitude s le_rfl
  exact eq_of_magnitude (hsign.trans hsign'.symm) (hmagnitude.trans hmagnitude'.symm)

theorem weight_lt_of_ne (h : magnitude x ≤ infiniteMagnitude) (hne : x ≠ infinity false) :
    weight x < infiniteMagnitude :=
  lt_of_le_of_ne (weight_le h).2 fun heq => hne (eq_infinity false heq)

theorem lt_weight_of_ne (h : magnitude x ≤ infiniteMagnitude) (hne : x ≠ infinity true) :
    -(infiniteMagnitude : Int) < weight x :=
  lt_of_le_of_ne (weight_le h).1 fun heq => hne (eq_infinity true heq.symm)

theorem weight_zero : weight 0.0 = 0 := by
  decide

theorem toRat?_congr (h : weight x = weight y) : toRat? x = toRat? y := by
  have hmagnitude : magnitude x = magnitude y := by
    rw [← natAbs_weight x, ← natAbs_weight y, h]
  by_cases hy : magnitude y < infiniteMagnitude
  · rw [toRat?_exact hy, toRat?_exact (hmagnitude.trans_lt hy), exact, exact, h]
  · unfold toRat?
    rw [hmagnitude, if_neg hy, if_neg hy]

/-! ## Steps -/

theorem nextUp_least (h : magnitude x ≤ infiniteMagnitude) (hlt : weight x < infiniteMagnitude) :
    x < nextUp x ∧ ∀ y, x < y → nextUp x ≤ y := by
  have hstep := weight_nextUp h hlt
  have hnext := number_nextUp h
  constructor
  · apply lt_iff.mpr
    exact ⟨h, hnext, by omega⟩
  · intro y hy
    obtain ⟨-, hnumber, hweight⟩ := lt_iff.mp hy
    apply le_iff.mpr
    exact ⟨hnext, hnumber, by omega⟩

theorem nextDown_greatest (h : magnitude x ≤ infiniteMagnitude)
    (hlt : -(infiniteMagnitude : Int) < weight x) :
    nextDown x < x ∧ ∀ y, y < x → y ≤ nextDown x := by
  have hstep := weight_nextDown h hlt
  have hnext := number_nextDown h
  constructor
  · apply lt_iff.mpr
    exact ⟨hnext, h, by omega⟩
  · intro y hy
    obtain ⟨hnumber, -, hweight⟩ := lt_iff.mp hy
    apply le_iff.mpr
    exact ⟨hnumber, hnext, by omega⟩

/-- The steps undo each other, also across infinity. -/
theorem weight_nextDown_nextUp (h : magnitude x < infiniteMagnitude) :
    weight (nextDown (nextUp x)) = weight x := by
  have hown := natAbs_weight x
  have hup := weight_nextUp h.le (by omega)
  have hdown := weight_nextDown (number_nextUp h.le) (by omega)
  omega

theorem weight_nextUp_nextDown (h : magnitude x < infiniteMagnitude) :
    weight (nextUp (nextDown x)) = weight x := by
  have hown := natAbs_weight x
  have hdown := weight_nextDown h.le (by omega)
  have hup := weight_nextUp (number_nextDown h.le) (by omega)
  omega

/-! ## Bits -/

theorem toNat_toBits (x : Float) :
    x.toBits.toNat = (if isNegative x then 2 ^ 63 else 0) + magnitude x := by
  have hlt := toBits_lt x
  unfold isNegative magnitude
  split_ifs with h <;> simp only [decide_eq_true_eq] at h <;> omega

theorem toNat_toBits_ofMagnitude (s : Bool) {m : Nat} (h : m ≤ infiniteMagnitude) :
    (ofMagnitude s m).toBits.toNat = (if s then 2 ^ 63 else 0) + m := by
  obtain ⟨hsign, hmagnitude⟩ := number_ofMagnitude s h
  rw [toNat_toBits, hsign, hmagnitude]

theorem beq_zero (h : magnitude x ≤ infiniteMagnitude) : (x == 0.0) = true ↔ magnitude x = 0 := by
  have hnone : magnitude 0.0 ≤ infiniteMagnitude := by decide
  have hown := natAbs_weight x
  rw [beq_iff, weight_zero]
  exact ⟨fun heq => by omega, fun heq => ⟨h, hnone, by omega⟩⟩

theorem zero_lt (h : magnitude x ≤ infiniteMagnitude) :
    0.0 < x ↔ isNegative x = false ∧ 0 < magnitude x := by
  have hnone : magnitude 0.0 ≤ infiniteMagnitude := by decide
  rw [lt_iff, weight_zero]
  unfold weight
  cases isNegative x <;> simp [h, hnone]

/-- The step up counts the bits of a positive double further and those of a negative one back. -/
theorem toBits_nextUp (h : magnitude x ≤ infiniteMagnitude) (hlt : weight x < infiniteMagnitude) :
    (nextUp x).toBits =
      if x == 0.0 then 1 else if 0.0 < x then x.toBits + 1 else x.toBits - 1 := by
  have hinf : infiniteMagnitude = 2047 * 2 ^ 52 := rfl
  have hbits := toNat_toBits x
  apply UInt64.toNat_inj.mp
  rw [nextUp_eq h hlt]
  unfold weight at hlt
  by_cases hzero : magnitude x = 0
  · rw [if_pos hzero, if_pos ((beq_zero h).mpr hzero), toNat_toBits_ofMagnitude false (by omega)]
    rfl
  rw [if_neg hzero, if_neg (mt (beq_zero h).mp hzero)]
  cases hs : isNegative x with
  | false =>
    rw [hs] at hlt hbits
    simp only [Bool.false_eq_true, if_false, Nat.cast_lt, zero_add] at hlt hbits ⊢
    have hstep : (x.toBits + 1).toNat = x.toBits.toNat + 1 := by
      have hone : (1 : UInt64).toNat = 1 := rfl
      rw [UInt64.toNat_add, hone]
      apply Nat.mod_eq_of_lt
      omega
    rw [if_pos ((zero_lt h).mpr ⟨hs, Nat.pos_of_ne_zero hzero⟩),
      toNat_toBits_ofMagnitude false hlt, hstep, hbits]
    simp
  | true =>
    rw [hs] at hbits
    simp only [if_true] at hbits ⊢
    have hstep : (x.toBits - 1).toNat = x.toBits.toNat - 1 := by
      rw [UInt64.toNat_sub_of_le]
      · rfl
      · apply UInt64.le_iff_toNat_le.mpr
        change 1 ≤ x.toBits.toNat
        omega
    have hnotPositive : ¬0.0 < x := by
      intro hpositive
      rw [((zero_lt h).mp hpositive).1] at hs
      cases hs
    rw [if_neg hnotPositive, toNat_toBits_ofMagnitude true (by omega), hstep, hbits]
    simp only [if_true]
    omega

/-! ## Units in the last place -/

theorem abs_number (h : magnitude x ≤ infiniteMagnitude) :
    isNegative x.abs = false ∧ magnitude x.abs = magnitude x := by
  have habs : x.abs = packed x.toModel.unpack.abs := rfl
  rw [habs]
  rcases unpack_cases x with ⟨hzero, hu⟩ | ⟨hs, -, hlt, hu⟩ | ⟨hinf, hu⟩ | ⟨hnan, -⟩
  · rw [hu, hzero]
    exact packed_zero .positive
  · rw [exponent_eq] at hu
    obtain ⟨hsign, hmagnitude⟩ := packed_finite .positive hs (significand_lt _)
      (significand_normal _) rfl
    rw [binade_significand, min_eq_left hlt.le] at hmagnitude
    rw [hu]
    exact ⟨hsign, hmagnitude⟩
  · rw [hu, hinf]
    exact packed_infinity .positive
  · omega

theorem abs_lt_greatest (h : x.abs < greatest) : magnitude x + 1 < infiniteMagnitude := by
  have hgreatest : weight greatest = infiniteMagnitude - 1 := by decide
  obtain ⟨hnumber, -, hlt⟩ := lt_iff.mp h
  have hx : magnitude x ≤ infiniteMagnitude := by
    by_contra hnan
    -- the absolute value of a NaN is one, and a NaN is below nothing
    have hnone : infiniteMagnitude < magnitude (packed .notANumber) := by decide
    have habs : x.abs = packed x.toModel.unpack.abs := rfl
    rw [habs] at hnumber
    rcases unpack_cases x with ⟨hm, -⟩ | ⟨-, -, hm, -⟩ | ⟨hm, -⟩ | ⟨-, hu⟩
    · omega
    · omega
    · omega
    · rw [hu] at hnumber
      exact absurd hnumber (not_le.mpr hnone)
  obtain ⟨hsign, hmagnitude⟩ := abs_number hx
  rw [hgreatest, weight, hsign, hmagnitude] at hlt
  simp only [Bool.false_eq_true, if_false] at hlt
  omega

/-- Below the greatest double, the unit in the last place leads to the next one. -/
theorem exact_ulp (h : magnitude x + 1 < infiniteMagnitude) :
    magnitude (nextUp x.abs) < infiniteMagnitude ∧
      exact (ulp x) = exact (nextUp x.abs) - exact x.abs := by
  obtain ⟨hsign, hmagnitude⟩ := abs_number (x := x) (by omega)
  obtain ⟨hulp, hunit⟩ := ulp_finite (x := x) (by omega)
  obtain ⟨hnextSign, hnext⟩ := nextUp_finite ⟨hsign, by omega⟩
  rw [hmagnitude] at hnext
  refine ⟨by omega, ?_⟩
  rw [exact_eq, exact_eq, exact_eq, hulp.sign, hnextSign, hsign, hunit, hnext, hmagnitude,
    units_succ]
  simp only [signed, Bool.false_eq_true, if_false]
  push_cast
  ring

end

/-! ## Adjacency -/

/-- Doubles are ordered like what they denote; the step up leads to the least greater double, which
has the next bits, and the step down to the greatest smaller one; the steps undo each other; and the
unit in the last place is the distance to the neighbour away from zero. -/
theorem neighbors_adjacent :
    (∀ (x y : Float) (p q : ℚ), toRat? x = some p → toRat? y = some q → (x < y ↔ p < q)) ∧
    (∀ x : Float, x.isNaN = false → x ≠ infinity false →
      (x < nextUp x ∧ ∀ y, x < y → nextUp x ≤ y) ∧
        (nextUp x).toBits =
          if x == 0.0 then 1 else if 0.0 < x then x.toBits + 1 else x.toBits - 1) ∧
    (∀ x : Float, x.isNaN = false → x ≠ infinity true →
      nextDown x < x ∧ ∀ y, y < x → y ≤ nextDown x) ∧
    (∀ x : Float, x.isFinite = true →
      toRat? (nextDown (nextUp x)) = toRat? x ∧ toRat? (nextUp (nextDown x)) = toRat? x) ∧
    ∀ x : Float, x.abs < greatest → ∃ unit own next : ℚ, toRat? (ulp x) = some unit ∧
      toRat? x.abs = some own ∧ toRat? (nextUp x.abs) = some next ∧ unit = next - own := by
  refine ⟨?_, ?_, ?_, ?_, ?_⟩
  · intro x y p q hx hy
    obtain ⟨hfinite, rfl⟩ := toRat?_eq_some hx
    obtain ⟨hfinite', rfl⟩ := toRat?_eq_some hy
    exact lt_iff_exact hfinite hfinite'
  · intro x hnan hne
    have hnumber := isNaN_eq_false.mp hnan
    have hlt := weight_lt_of_ne hnumber hne
    exact ⟨nextUp_least hnumber hlt, toBits_nextUp hnumber hlt⟩
  · intro x hnan hne
    have hnumber := isNaN_eq_false.mp hnan
    exact nextDown_greatest hnumber (lt_weight_of_ne hnumber hne)
  · intro x hx
    have hfinite := isFinite_iff.mp hx
    exact ⟨toRat?_congr (weight_nextDown_nextUp hfinite),
      toRat?_congr (weight_nextUp_nextDown hfinite)⟩
  · intro x hx
    have hsmall := abs_lt_greatest hx
    have hown := (abs_number (x := x) (by omega)).2
    have hulp := (ulp_finite (x := x) (by omega)).1
    obtain ⟨hnext, hunit⟩ := exact_ulp hsmall
    exact ⟨_, _, _, toRat?_exact hulp.finite, toRat?_exact (by omega), toRat?_exact hnext, hunit⟩

/-- The step up from the greatest negative double leads to a zero, and the unit of the least normal
double is still that of the subnormal ones. -/
theorem neighbors_adjacent_sample :
    let x := Float.ofBits 0x8000000000000001
    let y := Float.ofBits 0x8010000000000000
    (x.isNaN = false ∧ x ≠ infinity false ∧ x ≠ infinity true ∧ x.isFinite = true ∧
      y.abs < greatest ∧ toRat? x = some (-(1 / 2 ^ 1074)) ∧ toRat? 0.0 = some 0) ∧
    x < 0.0 ∧ nextUp x ≤ 0.0 ∧ (nextUp x).toBits = 0x8000000000000000 ∧ nextDown x < x ∧
    toRat? (nextDown (nextUp x)) = toRat? x ∧
    ∃ unit own next : ℚ, toRat? (ulp y) = some unit ∧ toRat? y.abs = some own ∧
      toRat? (nextUp y.abs) = some next ∧ unit = next - own := by
  intro x y
  have hnan : x.isNaN = false := by decide
  have hbelow : x ≠ infinity false := fun h =>
    absurd (congrArg Float.toBits h) (by decide)
  have habove : x ≠ infinity true := fun h =>
    absurd (congrArg Float.toBits h) (by decide)
  have hfinite : x.isFinite = true := by decide
  have hsmall : y.abs < greatest := by decide
  have hown : toRat? x = some (-(1 / 2 ^ 1074)) := by decide +kernel
  have hzero : toRat? 0.0 = some 0 := by decide +kernel
  obtain ⟨horder, hup, hdown, hundo, hunit⟩ := neighbors_adjacent
  obtain ⟨⟨-, hleast⟩, hbits⟩ := hup x hnan hbelow
  have hneg : x < 0.0 := (horder x 0.0 _ _ hown hzero).mpr (by norm_num)
  exact ⟨⟨hnan, hbelow, habove, hfinite, hsmall, hown, hzero⟩, hneg, hleast 0.0 hneg,
    hbits.trans (by decide), (hdown x hnan habove).1, (hundo x hfinite).1,
    hunit y hsmall⟩

end Recoding.Binary64
