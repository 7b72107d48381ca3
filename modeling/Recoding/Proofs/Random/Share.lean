import Recoding.Proofs.Random.Budget
import Recoding.Proofs.Random.Mechanism

/-!
# The sign of a share

A share is one double below the rounded quotient, whatever that is. So the share of a budget is
positive exactly if the quotient is rounded to more than the least positive double; else it is zero
or even negative, and a negative share turns the order of the weights around.
-/

namespace Recoding

open Binary64

/-! ## The lower end of a quotient -/

theorem hull_lower {ends : List Float} {i : Interval} {x : Float}
    (h : Interval.hull ends = .ok i) (hx : x ∈ ends) (hle : ∀ y ∈ ends, weight x ≤ weight y) :
    magnitude i.lower < infiniteMagnitude ∧ weight i.lower = weight x - 1 := by
  obtain ⟨_, hchecked, h⟩ := bind_eq_ok.mp h
  obtain ⟨rfl, hfinite, -⟩ := Interval.bounded_ok.mp h
  have hends : ∀ y ∈ ends, magnitude y ≤ infiniteMagnitude :=
    fun y hy => (Interval.forM_checkEnd hchecked y hy).le
  have hinfinity : magnitude (infinity false) ≤ infiniteMagnitude := by decide
  have hgreatest : weight (infinity false) = infiniteMagnitude := by decide
  have hbound := (weight_le (hends x hx)).2
  obtain ⟨hfold, hlower⟩ := Interval.foldl_smaller (weight x) hinfinity hends
  obtain ⟨-, hleast⟩ := Interval.foldl_smaller _ hinfinity hends
  refine ⟨hfinite, ?_⟩
  exact (weight_nextDown_of_finite hfold hfinite).2.trans
    (congrArg (· - 1) (le_antisymm ((hleast.mp le_rfl).2 x hx)
      (hlower.mpr ⟨hbound.trans_eq hgreatest.symm, hle⟩)))

section
variable {epsilon share : Float} {n : Nat}

/-- The lower end of the quotient of a positive double is one step below the rounded quotient by the
upper end of the divisor. -/
theorem div_lower {parts quotient : Interval} (hfinite : magnitude epsilon < infiniteMagnitude)
    (hpos : 0 < exact epsilon) (hparts : parts.Proper) (hupper : 0 < exact parts.upper)
    (h : Interval.div ⟨epsilon, epsilon⟩ parts = .ok quotient) :
    magnitude quotient.lower < infiniteMagnitude ∧
      weight quotient.lower = rounded (exact epsilon / exact parts.upper) - 1 := by
  obtain ⟨hzero, hhull⟩ := Interval.div_ok hparts h
  -- a divisor that reaches above zero and does not contain it is positive
  have hlower : 0 < exact parts.lower := by
    by_contra hle
    exact hzero (hparts.encloses.mpr ⟨not_lt.mp hle, hupper.le⟩)
  have hleast := rounds_div hfinite hparts.upper_finite (magnitude_pos hupper.ne')
  have hother := rounds_div hfinite hparts.lower_finite (magnitude_pos hlower.ne')
  have hordered := (le_iff_exact hparts.lower_finite hparts.upper_finite).mp hparts.ordered
  have hle : weight (epsilon / parts.upper) ≤ weight (epsilon / parts.lower) := by
    rw [hleast.weight, hother.weight]
    exact rounded_mono (div_le_div_of_nonneg_left hpos.le hlower hordered)
  rw [← hleast.weight]
  apply hull_lower hhull
  · simp [Interval.corners, Interval.ends]
  · simp [Interval.corners, Interval.ends, hle]

/-- A share is one step below the rounded quotient by the upper end of the number of steps. -/
theorem share_weight (h : budgetPerStep epsilon (some n) = .ok share) : ∃ parts : Interval,
    Interval.ofNat n = .ok parts ∧ magnitude parts.upper < infiniteMagnitude ∧
      n ≤ exact parts.upper ∧ 0 < exact parts.upper ∧ magnitude share < infiniteMagnitude ∧
      weight share = rounded (exact epsilon / exact parts.upper) - 1 := by
  obtain ⟨hn, hfinite, hpos, whole, parts, quotient, hwhole, hparts, hquotient, rfl⟩ :=
    budgetPerStep_ok h
  obtain ⟨rfl, -⟩ := Interval.point_ok.mp hwhole
  obtain ⟨hproper, hcount⟩ := Interval.ofNat_encloses hparts
  have hle := (hproper.encloses.mp hcount).2
  have hupper : 0 < exact parts.upper := (by exact_mod_cast hn : (0 : ℚ) < n).trans_le hle
  exact ⟨parts, hparts, hproper.upper_finite, hle, hupper,
    div_lower hfinite hpos hproper hupper hquotient⟩

/-- The upper end of a number of steps. -/
def divisor (n : Nat) : Float := if n < 2 ^ 53 then ofCount n else nextUp (ofCount n)

theorem ofNat_upper {parts : Interval} (h : Interval.ofNat n = .ok parts) :
    parts.upper = divisor n := by
  rw [Interval.ofNat_eq] at h
  unfold divisor
  split_ifs at h ⊢ with hsmall
  · obtain ⟨rfl, -⟩ := Interval.point_ok.mp h
    rfl
  · obtain ⟨_, -, h⟩ := bind_eq_ok.mp h
    obtain ⟨rfl, -⟩ := Interval.bounded_ok.mp h
    rfl

/-! ## Signs -/

/-- One step below a rounded positive rational, the sign depends on two midpoints. -/
theorem sign_of_rounded {q : ℚ} (hq : 0 < q) :
    (0 < rounded q - 1 ↔ 3 / 2 ^ 1075 ≤ q) ∧ (rounded q - 1 < 0 ↔ q ≤ 1 / 2 ^ 1075) ∧
      -1 ≤ rounded q - 1 := by
  -- the first midpoint goes down to zero and the second one up to two, as both are even
  have hfirst : midpoint 0 = 1 / 2 ^ 1075 := by decide +kernel
  have hsecond : midpoint 1 = 3 / 2 ^ 1075 := by decide +kernel
  have hzero := lt_roundedMagnitude_iff (q := q) (k := 0) (by decide)
  have hone := lt_roundedMagnitude_iff (q := q) (k := 1) (by decide)
  have hrounded : rounded q = roundedMagnitude q := if_neg hq.not_gt
  rw [abs_of_pos hq, hfirst] at hzero
  rw [abs_of_pos hq, hsecond, and_iff_left rfl, ← le_iff_lt_or_eq] at hone
  simp only [Nat.zero_mod, zero_ne_one, and_false, or_false] at hzero
  rw [← hone, ← not_lt, ← hzero, hrounded]
  omega

end

/-- Half of the least positive double is rounded to zero, one step below which the share is. -/
theorem budgetPerStep_least :
    budgetPerStep (ofMagnitude false 1) (some 2) = .ok (ofMagnitude true 1) :=
  eq_ok_of_toOption (by decide +kernel)

/-! ## Weights -/

namespace Mechanism

/-- A weight is the exponential of this. -/
def exponent {κ : Type} (epsilon : Float) (pool : List (κ × Float)) (score : Float) : Float :=
  epsilon * (score - highest pool) / 2.0

theorem weights_eq {κ : Type} (epsilon : Float) (pool : List (κ × Float)) :
    weights epsilon pool =
      pool.map fun entry => (entry.1, (exponent epsilon pool entry.2).exp) := rfl

section
variable {κ : Type} {epsilon : Float} {pool : List (κ × Float)} {low high : κ × Float}

theorem half_le_half {x y : Float} (h : x ≤ y) : x / 2.0 ≤ y / 2.0 :=
  div_le_div_pos ⟨by decide, by decide⟩ (by decide) h

theorem shifted_le (h : ∀ entry ∈ pool, entry.2.isFinite) (hlow : low ∈ pool) (hhigh : high ∈ pool)
    (hle : low.2 ≤ high.2) : low.2 - highest pool ≤ high.2 - highest pool := by
  have hfinite : ∀ entry ∈ pool, magnitude entry.2 < infiniteMagnitude :=
    fun entry hentry => isFinite_iff.mp (h entry hentry)
  exact sub_le_sub_finite (hfinite low hlow) (hfinite high hhigh)
    (highest_lt (List.ne_nil_of_mem hlow) hfinite) hle

theorem exponent_le (hfinite : magnitude epsilon < infiniteMagnitude) (hpos : 0 < weight epsilon)
    (h : ∀ entry ∈ pool, entry.2.isFinite) (hlow : low ∈ pool) (hhigh : high ∈ pool)
    (hle : low.2 ≤ high.2) : exponent epsilon pool low.2 ≤ exponent epsilon pool high.2 :=
  half_le_half (mul_le_mul_pos hfinite hpos (shifted_le h hlow hhigh hle))

theorem exponent_ge (hfinite : magnitude epsilon < infiniteMagnitude) (hneg : weight epsilon < 0)
    (h : ∀ entry ∈ pool, entry.2.isFinite) (hlow : low ∈ pool) (hhigh : high ∈ pool)
    (hle : low.2 ≤ high.2) : exponent epsilon pool high.2 ≤ exponent epsilon pool low.2 :=
  half_le_half (mul_le_mul_neg hfinite hneg (shifted_le h hlow hhigh hle))

end
end Mechanism

/-- A share is positive exactly if the quotient reaches the midpoint of the two least positive
doubles, and negative, by the least of them, exactly if it is at most half of the first. With a
positive share a higher score has no lower exponent, with a negative one no higher exponent. -/
theorem budgetPerStep_sign {epsilon share : Float} {n : Nat}
    (h : budgetPerStep epsilon (some n) = .ok share) : ∃ whole parts part : ℚ,
      toRat? epsilon = some whole ∧ toRat? (divisor n) = some parts ∧ toRat? share = some part ∧
      0 < whole ∧ n ≤ parts ∧ (n < 2 ^ 53 → parts = n) ∧
      (0 < part ↔ 3 / 2 ^ 1075 ≤ whole / parts) ∧ (part < 0 ↔ whole / parts ≤ 1 / 2 ^ 1075) ∧
      (part < 0 → part = -(1 / 2 ^ 1074)) ∧
      ∀ (κ : Type) (pool : List (κ × Float)), (∀ entry ∈ pool, entry.2.isFinite) →
        Mechanism.weights share pool =
            pool.map (fun entry => (entry.1, (Mechanism.exponent share pool entry.2).exp)) ∧
          ∀ low ∈ pool, ∀ high ∈ pool, low.2 ≤ high.2 →
            (0 < part →
              Mechanism.exponent share pool low.2 ≤ Mechanism.exponent share pool high.2) ∧
            (part < 0 →
              Mechanism.exponent share pool high.2 ≤ Mechanism.exponent share pool low.2) := by
  obtain ⟨-, hfinite, hwhole, -⟩ := budgetPerStep_ok h
  obtain ⟨i, hi, hupper, hle, hparts, hshare, hweight⟩ := share_weight h
  rw [ofNat_upper hi] at hupper hle hparts hweight
  obtain ⟨hpositive, hnegative, hleast⟩ := sign_of_rounded (div_pos hwhole hparts)
  rw [← hweight] at hpositive hnegative hleast
  refine ⟨_, _, _, toRat?_exact hfinite, toRat?_exact hupper, toRat?_exact hshare, hwhole, hle,
    ?_, exact_pos.trans hpositive, exact_lt_zero.trans hnegative, ?_, ?_⟩
  · intro hsmall
    unfold divisor
    rw [if_pos hsmall]
    exact Interval.exact_ofCount hsmall
  · intro hpart
    have hone : weight share = -1 := by
      have hbelow := exact_lt_zero.mp hpart
      omega
    rw [exact, hone]
    decide +kernel
  · intro κ pool hscores
    refine ⟨Mechanism.weights_eq share pool, ?_⟩
    intro low hlow high hhigh hordered
    constructor
    · intro hpart
      exact Mechanism.exponent_le hshare (exact_pos.mp hpart) hscores hlow hhigh hordered
    · intro hpart
      exact Mechanism.exponent_ge hshare (exact_lt_zero.mp hpart) hscores hlow hhigh hordered

/-- The least positive budget in two shares, which turn the order of two candidates around, and an
ordinary budget in five. -/
theorem budgetPerStep_sign_sample :
    (∃ share, budgetPerStep (ofMagnitude false 1) (some 2) = .ok share ∧
      toRat? share = some (-(1 / 2 ^ 1074)) ∧
      Mechanism.exponent share [(0, -1.0e308), (1, 0.0)] 0.0 ≤
        Mechanism.exponent share [(0, -1.0e308), (1, 0.0)] (-1.0e308)) ∧
    ∃ share, budgetPerStep 1.0 (some 5) = .ok share ∧
      (∃ part, toRat? share = some part ∧ 0 < part) ∧
      Mechanism.exponent share [(0, -1.0e308), (1, 0.0)] (-1.0e308) ≤
        Mechanism.exponent share [(0, -1.0e308), (1, 0.0)] 0.0 := by
  have hscores : ∀ entry ∈ [((0 : Nat), (-1.0e308 : Float)), (1, 0.0)], entry.2.isFinite := by
    decide +kernel
  have hordered : (-1.0e308 : Float) ≤ 0.0 := by decide +kernel
  constructor
  · obtain ⟨whole, parts, part, hwhole, -, hpart, -, -, hexactly, -, hneg, hleast, hall⟩ :=
      budgetPerStep_sign budgetPerStep_least
    have hvalue : toRat? (ofMagnitude false 1) = some (1 / 2 ^ 1074) := by decide +kernel
    have hwhole := Option.some.inj (hwhole.symm.trans hvalue)
    have hparts := hexactly (by decide)
    have hnegative : part < 0 := by
      apply hneg.mpr
      rw [hwhole, hparts]
      decide +kernel
    refine ⟨_, budgetPerStep_least, hpart.trans (congrArg some (hleast hnegative)), ?_⟩
    exact ((hall _ _ hscores).2 (0, -1.0e308) (by simp) (1, 0.0) (by simp) hordered).2 hnegative
  · obtain ⟨share, hok⟩ : ∃ share, budgetPerStep 1.0 (some 5) = .ok share :=
      (Option.isSome_iff_exists.mp (by decide +kernel)).imp fun _ => eq_ok_of_toOption
    obtain ⟨whole, parts, part, hwhole, -, hpart, -, -, hexactly, hpos, -, -, hall⟩ :=
      budgetPerStep_sign hok
    have hvalue : toRat? 1.0 = some 1 := by decide
    have hwhole := Option.some.inj (hwhole.symm.trans hvalue)
    have hparts := hexactly (by decide)
    have hpositive : 0 < part := by
      apply hpos.mpr
      rw [hwhole, hparts]
      decide +kernel
    refine ⟨share, hok, ⟨part, hpart, hpositive⟩, ?_⟩
    exact ((hall _ _ hscores).2 (0, -1.0e308) (by simp) (1, 0.0) (by simp) hordered).1 hpositive

/-- The least positive budget in two shares: the share is negative, and of two candidates the one
with the lower score has the higher exponent. -/
theorem share_negative :
    (ofMagnitude false 1).isFinite = true ∧ 0.0 < ofMagnitude false 1 ∧
      budgetPerStep (ofMagnitude false 1) (some 2) = .ok (ofMagnitude true 1) ∧
      ofMagnitude true 1 < 0.0 ∧
      Mechanism.exponent (ofMagnitude true 1) [(0, -1.0e308), (1, 0.0)] 0.0 <
        Mechanism.exponent (ofMagnitude true 1) [(0, -1.0e308), (1, 0.0)] (-1.0e308) := by
  refine ⟨by decide, by decide, budgetPerStep_least, by decide, ?_⟩
  decide +kernel

end Recoding
