import Recoding.Certified
import Recoding.Proofs.Binary64.Rounding

/-!
# Exact scores are rounded correctly

The conversion of an exact score yields the closest double there is, an even one if two are equally
close, and fails only if the score is too large for a double. The double is at most one unit in the
last place away from the score, so the check of the conversion never refuses it.
-/

namespace Recoding

open Binary64

theorem abs_eq (q : ℚ) : q.abs = |q| := by
  unfold Rat.abs
  split_ifs with h
  · exact (abs_of_nonneg h).symm
  · exact (abs_of_neg (not_le.mp h)).symm

section
variable {p q : ℚ} {x y : Float}

/-! ## Distances -/

theorem exact_of_rounds (h : Rounds x q) :
    exact x = signed (decide (q < 0)) (units (magnitude x) / finest) := by
  have hmagnitude := natAbs_weight x
  have hweight := h.weight
  unfold rounded at hweight
  rw [exact, signed]
  by_cases hq : q < 0
  · rw [if_pos hq] at hweight
    rw [if_pos (decide_eq_true hq), hweight, ofWeight_neg, ofWeight_natCast,
      show magnitude x = roundedMagnitude q by omega]
  · rw [if_neg hq] at hweight
    rw [if_neg (by simpa using hq), hweight, ofWeight_natCast,
      show magnitude x = roundedMagnitude q by omega]

theorem magnitude_of_rounds (h : Rounds x q) : magnitude x = roundedMagnitude q := by
  have hweight := h.weight
  unfold rounded at hweight
  rw [← natAbs_weight, hweight]
  split_ifs <;> omega

theorem abs_sub_signed (q r : ℚ) : |q - signed (decide (q < 0)) r| = |(|q|) - r| := by
  unfold signed
  by_cases h : q < 0
  · rw [if_pos (decide_eq_true h), abs_of_neg h, sub_neg_eq_add, ← neg_add', abs_neg]
  · rw [if_neg (by simpa using h), abs_of_nonneg (not_lt.mp h)]

theorem abs_exact (x : Float) : |exact x| = units (magnitude x) / finest := by
  have hnonneg : (0 : ℚ) ≤ units (magnitude x) / finest := by positivity
  rw [exact_eq, signed]
  split_ifs
  · rw [abs_neg, abs_of_nonneg hnonneg]
  · exact abs_of_nonneg hnonneg

theorem isNegative_of_exact (h : exact x ≠ 0) : isNegative x = decide (exact x < 0) := by
  have habs := abs_exact x
  have hvalue := exact_eq x
  rw [← habs] at hvalue
  unfold signed at hvalue
  cases hs : isNegative x with
  | true =>
    rw [hs, if_pos rfl] at hvalue
    have hle : exact x ≤ 0 := by
      rw [hvalue]
      exact neg_nonpos.mpr (abs_nonneg _)
    exact (decide_eq_true (lt_of_le_of_ne hle h)).symm
  | false =>
    rw [hs, if_neg Bool.false_ne_true] at hvalue
    have hle : 0 ≤ exact x := by
      rw [hvalue]
      exact abs_nonneg _
    exact (decide_eq_false (not_lt.mpr hle)).symm

/-- The nearest magnitude is at most a unit in the last place away from a rational. -/
theorem abs_sub_nearest (q : ℚ) : let m := nearestMagnitude q.num.natAbs q.den
    |(|q|) - (units m : ℚ) / finest| ≤ (2 ^ (m / 2 ^ 52 - 1) : ℕ) / finest := by
  intro m
  obtain ⟨habove, hbelow⟩ := nearestMagnitude_error (a := q.num.natAbs) q.den_pos
  have hden : (0 : ℚ) < q.den := by exact_mod_cast q.den_pos
  have hfinest := finest_cast_pos
  have habove : (q.num.natAbs : ℚ) * finest ≤
      (units m + (2 ^ (m / 2 ^ 52 - 1) : ℕ)) * q.den := by exact_mod_cast habove
  have hbelow : (units m : ℚ) * q.den ≤
      q.num.natAbs * finest + (2 ^ (m / 2 ^ 52 - 1) : ℕ) * q.den := by exact_mod_cast hbelow
  rw [← natAbs_div_den q, abs_le]
  constructor
  · rw [neg_le_sub_iff_le_add, ← sub_le_iff_le_add, ← sub_div, div_le_div_iff₀ hfinest hden]
    linarith
  · rw [sub_le_iff_le_add, ← add_div, div_le_div_iff₀ hden hfinest]
    linarith

theorem abs_sub_rounds (h : Rounds x q) (hfinite : magnitude x < infiniteMagnitude) :
    |q - exact x| ≤ exact (ulp x) := by
  obtain ⟨hulp, hunit⟩ := ulp_finite hfinite
  have hmagnitude := magnitude_of_rounds h
  have hnearest := hmagnitude.trans (roundedMagnitude_of_lt (hmagnitude ▸ hfinite))
  have herror := abs_sub_nearest q
  dsimp only at herror
  rw [exact_of_rounds h, abs_sub_signed, exact_eq (ulp x), hulp.sign, hunit, hnearest]
  exact herror

/-! ## Closest doubles -/

/-- A finite double that no other is closer to, and whose significand is even if another one is as
close. -/
structure Closest (x : Float) (q : ℚ) : Prop where
  finite : x.isFinite
  closest : ∀ (own other : ℚ) (y : Float), toRat? x = some own → toRat? y = some other →
    |q - own| ≤ |q - other| ∧
      (|q - own| = |q - other| → own ≠ other → significand (magnitude x) % 2 = 0)

theorem significand_mod_two (m : Nat) : significand m % 2 = m % 2 := by
  unfold significand
  split_ifs <;> omega

theorem Closest.of_rounds (h : Rounds x q) (hfinite : magnitude x < infiniteMagnitude) :
    Closest x q := by
  refine ⟨isFinite_iff.mpr hfinite, fun own other y hown hother => ?_⟩
  rw [toRat?_exact hfinite] at hown
  obtain ⟨-, rfl⟩ := toRat?_eq_some hother
  obtain rfl := Option.some.inj hown
  have hmagnitude := magnitude_of_rounds h
  have hnearest := hmagnitude.trans (roundedMagnitude_of_lt (hmagnitude ▸ hfinite))
  have hown : |q - exact x| = |(|q|) - units (magnitude x) / finest| := by
    rw [exact_of_rounds h, abs_sub_signed]
  have hother : |(|q|) - units (magnitude y) / finest| ≤ |q - exact y| := by
    rw [← abs_exact]
    exact abs_abs_sub_abs_le_abs_sub q (exact y)
  rw [significand_mod_two]
  by_cases hsame : magnitude y = magnitude x
  · rw [hsame, ← hown] at hother
    refine ⟨hother, fun heq hne => ?_⟩
    -- the other double is the negative one, which is as close to zero only
    have hneg : exact y = -exact x := by
      have habs : |exact y| = |exact x| := by rw [abs_exact, abs_exact, hsame]
      exact (abs_eq_abs.mp habs).resolve_left fun h => hne h.symm
    rw [hneg, sub_neg_eq_add] at heq
    rcases abs_eq_abs.mp heq with hsum | hsum
    · exact absurd (by linarith : exact x = exact y) hne
    · obtain rfl : q = 0 := by linarith
      rw [hmagnitude, roundedMagnitude_zero]
  · rw [hnearest] at hsame
    obtain ⟨hle, htie⟩ := nearestMagnitude_closest q.den_pos hsame
    rw [natAbs_div_den, ← hnearest, ← hown] at hle htie
    exact ⟨hle.trans hother, fun heq _ => htie (le_antisymm hle (hother.trans_eq heq.symm))⟩

/-! ## Conversion -/

/-- Half a unit beyond the greatest double, rounding reaches infinity. -/
theorem roundedMagnitude_lt_iff :
    roundedMagnitude q < infiniteMagnitude ↔ |q| < 2 ^ 1024 - 2 ^ 970 := by
  -- the greatest double is odd, so the midpoint beyond it is rounded up already
  have hodd : (infiniteMagnitude - 1) % 2 = 1 := by decide
  have hbound : midpoint (infiniteMagnitude - 1) = 2 ^ 1024 - 2 ^ 970 := by decide +kernel
  have hcut := lt_roundedMagnitude_iff (q := q) (k := infiniteMagnitude - 1) (by decide)
  rw [hbound, and_iff_left hodd, ← le_iff_lt_or_eq] at hcut
  have hpos : 0 < infiniteMagnitude := by decide
  have hlarge : infiniteMagnitude - 1 < roundedMagnitude q ↔
      ¬roundedMagnitude q < infiniteMagnitude := by omega
  rw [← not_iff_not, ← hlarge, hcut, not_lt]

theorem nearest?_rounds (h : |q| < 2 ^ 1024 - 2 ^ 970) : ∃ x, nearest? q = some x ∧
    magnitude x < infiniteMagnitude ∧ isNegative x = decide (q < 0) ∧ Rounds x q := by
  have hlt := roundedMagnitude_lt_iff.mpr h
  have hnearest := roundedMagnitude_of_lt hlt
  have hsign : decide (q.num < 0) = decide (q < 0) := decide_eq_decide.mpr Rat.num_neg
  obtain ⟨hneg, hmagnitude⟩ := number_ofMagnitude (decide (q < 0)) hlt.le
  refine ⟨ofMagnitude (decide (q < 0)) (roundedMagnitude q), ?_, hmagnitude.trans_lt hlt, hneg,
    hmagnitude.trans_le hlt.le, ?_⟩
  · unfold nearest?
    rw [← hnearest, hsign, if_pos hlt]
  · rw [weight_ofMagnitude _ hlt.le, rounded]
    simp

/-- A score that is small enough is converted to the double that it is rounded to. -/
theorem exists_certified (h : |q| < 2 ^ 1024 - 2 ^ 970) : ∃ x, certified q = .ok x ∧
    magnitude x < infiniteMagnitude ∧ isNegative x = decide (q < 0) ∧ Rounds x q := by
  obtain ⟨x, hnearest, hfinite, hsign, hrounds⟩ := nearest?_rounds h
  have herror := abs_sub_rounds hrounds hfinite
  refine ⟨x, ?_, hfinite, hsign, hrounds⟩
  unfold certified
  rw [hnearest]
  dsimp only
  rw [toRat?_exact hfinite, toRat?_exact (ulp_finite hfinite).1.finite]
  dsimp only
  rw [abs_eq, if_neg (not_lt.mpr herror)]

theorem certified_of_le (h : 2 ^ 1024 - 2 ^ 970 ≤ |q|) :
    certified q = .error (.scoreTooLarge q) := by
  have hle := mt roundedMagnitude_lt_iff.mp (not_lt.mpr h)
  have hlarge : ¬nearestMagnitude q.num.natAbs q.den < infiniteMagnitude := by
    unfold roundedMagnitude at hle
    omega
  unfold certified nearest?
  dsimp only
  rw [if_neg hlarge]

theorem certified_rounds (h : certified q = .ok x) : |q| < 2 ^ 1024 - 2 ^ 970 ∧
    magnitude x < infiniteMagnitude ∧ isNegative x = decide (q < 0) ∧ Rounds x q := by
  rcases lt_or_ge (|q|) (2 ^ 1024 - 2 ^ 970) with hlt | hle
  · obtain ⟨y, hy, hrounds⟩ := exists_certified hlt
    rw [hy] at h
    cases h
    exact ⟨hlt, hrounds⟩
  · rw [certified_of_le hle] at h
    cases h

theorem certified_ok (h : |q| ≤ 2 ^ 1023) : ∃ x, certified q = .ok x := by
  have hdouble : (2 : ℚ) ^ 1024 = 2 * 2 ^ 1023 := pow_succ' 2 1023
  have hsmall : (2 : ℚ) ^ 970 < 2 ^ 1023 := pow_lt_pow_right₀ one_lt_two (by decide)
  have hlt : (2 : ℚ) ^ 1023 < 2 ^ 1024 - 2 ^ 970 := by
    rw [hdouble, two_mul, add_sub_assoc]
    exact lt_add_of_pos_right _ (sub_pos.mpr hsmall)
  obtain ⟨x, hx, -⟩ := exists_certified (h.trans_lt hlt)
  exact ⟨x, hx⟩

theorem certified_lt (h : certified q = .ok x) : magnitude x < infiniteMagnitude :=
  (certified_rounds h).2.1

/-! ## Laws -/

theorem certified_mono (h : p ≤ q) (hx : certified p = .ok x) (hy : certified q = .ok y) :
    x ≤ y := by
  obtain ⟨-, -, -, hp⟩ := certified_rounds hx
  obtain ⟨-, -, -, hq⟩ := certified_rounds hy
  exact hp.le hq h

/-- The conversion commutes with negation, which keeps the one zero that scores have. -/
theorem certified_neg (h : certified q = .ok x) : ∃ y, certified (-q) = .ok y ∧
    toRat? y = (toRat? x).map Neg.neg ∧ (q ≠ 0 → y = -x) := by
  obtain ⟨hlt, hfinite, hsign, hrounds⟩ := certified_rounds h
  obtain ⟨y, hy, hfinite', hsign', hrounds'⟩ :=
    exists_certified (q := -q) (by rwa [abs_neg])
  have hweight : weight y = -weight x := by
    rw [hrounds'.weight, hrounds.weight, rounded_neg]
  refine ⟨y, hy, ?_, fun hne => ?_⟩
  · rw [toRat?_exact hfinite, toRat?_exact hfinite', exact, hweight, ofWeight_neg]
    rfl
  · obtain ⟨hnegSign, hnegMagnitude⟩ := neg_number hfinite.le
    apply eq_of_magnitude
    · rw [hnegSign, hsign, hsign']
      rcases lt_or_gt_of_ne hne with hlt | hgt
      · simp [hlt, hlt.le]
      · simp [hgt, hgt.le]
    · rw [hnegMagnitude, ← natAbs_weight, ← natAbs_weight, hweight, Int.natAbs_neg]

/-- The exact value of a double is converted back to it, and zero to the positive one. -/
theorem certified_exact (h : toRat? x = some q) : certified q = .ok (if q = 0 then 0.0 else x) := by
  obtain ⟨hfinite, rfl⟩ := toRat?_eq_some h
  have hrounded := (rounds_exact hfinite.le).weight
  have hmagnitude := magnitude_of_rounds (rounds_exact hfinite.le)
  have hsmall := roundedMagnitude_lt_iff.mp (hmagnitude ▸ hfinite)
  obtain ⟨y, hy, hfinite', hsign, hrounds⟩ := exists_certified hsmall
  have hsame := (magnitude_of_rounds hrounds).trans hmagnitude.symm
  rw [hy]
  congr 1
  split_ifs with hzero
  · have hpositive : isNegative 0.0 = false := by decide
    have hnone : magnitude 0.0 = 0 := by decide
    apply eq_of_magnitude
    · rw [hsign, hzero, hpositive]
      simp
    · rw [magnitude_of_rounds hrounds, hzero, roundedMagnitude_zero, hnone]
  · apply eq_of_magnitude _ hsame
    rw [hsign]
    exact (isNegative_of_exact hzero).symm

end

/-- Scores below the bound are converted to the closest double, even ones first, which is at most a
unit in the last place away; the others are refused as too large. The conversion keeps the order,
commutes with negation, and gives every double back that is not the negative zero. -/
theorem certified_correct :
    (∀ q : ℚ, |q| < 2 ^ 1024 - 2 ^ 970 → ∃ x, certified q = .ok x ∧ Closest x q ∧
      ∃ value unit, toRat? x = some value ∧ toRat? (ulp x) = some unit ∧ |q - value| ≤ unit) ∧
    (∀ q : ℚ, 2 ^ 1024 - 2 ^ 970 ≤ |q| → certified q = .error (.scoreTooLarge q)) ∧
    (∀ (p q : ℚ) (x y : Float), p ≤ q → certified p = .ok x → certified q = .ok y → x ≤ y) ∧
    (∀ (q : ℚ) (x : Float), certified q = .ok x → ∃ y, certified (-q) = .ok y ∧
      toRat? y = (toRat? x).map Neg.neg ∧ (q ≠ 0 → y = -x)) ∧
    ∀ (x : Float) (q : ℚ), toRat? x = some q → certified q = .ok (if q = 0 then 0.0 else x) := by
  refine ⟨fun q h => ?_, fun q => certified_of_le, fun p q x y => certified_mono,
    fun q x => certified_neg, fun x q => certified_exact⟩
  obtain ⟨x, hx, hfinite, -, hrounds⟩ := exists_certified h
  exact ⟨x, hx, .of_rounds hrounds hfinite, exact x, exact (ulp x), toRat?_exact hfinite,
    toRat?_exact (ulp_finite hfinite).1.finite, abs_sub_rounds hrounds hfinite⟩

/-- A score midway between the two least positive doubles goes to the even one, and the middle
between the greatest double and the next power of two is the first score that is too large. -/
theorem certified_correct_ties :
    let tie : ℚ := 3 / 2 ^ 1075
    let bound : ℚ := 2 ^ 1024 - 2 ^ 970
    (|tie| < bound ∧ bound ≤ |bound| ∧ tie ≤ 1 ∧ tie ≠ 0 ∧ toRat? (-0.0) = some 0) ∧
    ∃ x y, certified tie = .ok x ∧ x.toBits = 2 ∧ Closest x tie ∧ certified 1 = .ok y ∧ x ≤ y ∧
      certified (-tie) = .ok (-x) ∧ certified bound = .error (.scoreTooLarge bound) ∧
      certified 0 = .ok 0.0 := by
  intro tie bound
  have hsmall : |tie| < bound := by decide +kernel
  have hlarge : bound ≤ |bound| := le_abs_self bound
  have hle : tie ≤ 1 := by decide +kernel
  have hne : tie ≠ 0 := by decide +kernel
  have hzero : toRat? (-0.0) = some 0 := by decide +kernel
  obtain ⟨hclosest, hrefused, hmono, hneg, hback⟩ := certified_correct
  obtain ⟨x, hx, hmiddle, -⟩ := hclosest tie hsmall
  obtain ⟨y, hy, -⟩ := hclosest 1 (by decide +kernel)
  obtain ⟨z, hz, -, hopposite⟩ := hneg tie x hx
  have heven : (certified tie).toOption.map Float.toBits = some 2 := by decide +kernel
  rw [hx] at heven
  exact ⟨⟨hsmall, hlarge, hle, hne, hzero⟩, x, y, hx, Option.some.inj heven, hmiddle, hy,
    hmono tie 1 x y hle hx hy, hopposite hne ▸ hz, hrefused bound hlarge, hback (-0.0) 0 hzero⟩

end Recoding
