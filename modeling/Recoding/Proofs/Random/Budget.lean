import Recoding.Proofs.Interval
import Recoding.Random.Budget

/-!
# Shares of a privacy budget

The budget of one step, read as the rational that it is, is at most an even share of the whole.
-/

namespace Recoding

open Binary64

/-- A budget is split only if it is finite and above zero, and into at least one share. -/
theorem budgetPerStep_ok {epsilon share : Float} {n : Nat}
    (h : budgetPerStep epsilon (some n) = .ok share) : 0 < n ∧
      magnitude epsilon < infiniteMagnitude ∧ 0 < exact epsilon ∧ ∃ whole parts quotient,
        Interval.point epsilon = .ok whole ∧ Interval.ofNat n = .ok parts ∧
        Interval.div whole parts = .ok quotient ∧ quotient.lower = share := by
  unfold budgetPerStep at h
  dsimp only at h
  split_ifs at h with hzero hbad
  rw [Bool.or_eq_true, not_or, Bool.not_eq_true', Bool.not_eq_false, decide_eq_true_eq] at hbad
  obtain ⟨hfinite, hpos⟩ := hbad
  rw [isFinite_iff] at hfinite
  have hnone : magnitude 0.0 = 0 := by decide
  rw [le_iff_exact hfinite (hnone.trans_lt (by decide)), exact_of_zero hnone, not_le] at hpos
  obtain ⟨whole, hwhole, h⟩ := bind_eq_ok.mp h
  obtain ⟨parts, hparts, h⟩ := bind_eq_ok.mp h
  obtain ⟨quotient, hquotient, h⟩ := bind_eq_ok.mp h
  exact ⟨Nat.pos_of_ne_zero hzero, hfinite, hpos, whole, parts, quotient, hwhole, hparts,
    hquotient, Except.ok.inj h⟩

theorem budgetPerStep_mul_le {epsilon share : Float} {n : Nat}
    (h : budgetPerStep epsilon (some n) = .ok share) : ∃ whole part : ℚ,
      toRat? epsilon = some whole ∧ toRat? share = some part ∧ 0 < whole ∧
        n * part ≤ whole := by
  obtain ⟨hn, hfinite, hpos, whole, parts, quotient, hwhole, hparts, hquotient, rfl⟩ :=
    budgetPerStep_ok h
  obtain ⟨rfl, -⟩ := Interval.point_ok.mp hwhole
  obtain ⟨hproper, hpoint⟩ :=
    Interval.proper_of_exact (i := ⟨epsilon, epsilon⟩) hfinite hfinite le_rfl le_rfl
  obtain ⟨hdivisor, hcount⟩ := Interval.ofNat_encloses hparts
  obtain ⟨part, hpart, hle⟩ :=
    (Interval.div_encloses hproper hdivisor hquotient hpoint hcount).2.lower
  refine ⟨_, part, toRat?_exact hfinite, hpart, hpos, ?_⟩
  rw [mul_comm]
  exact (le_div_iff₀ (by exact_mod_cast hn)).mp hle

end Recoding
