import Recoding.Proofs.Check.Capable

/-!
# Scores of counted things

The scores of some metrics are made of levels and of squared numbers of records. If the extents of
a dataset fit into machine words, none of these scores is too large for a double.
-/

namespace Recoding

/-- The metrics whose scores are fractions of counted things. -/
def MetricChoice.countsScores : MetricChoice → Bool
  | .height .geometricMean => false
  | .height _ => true
  | .discernability => true
  | .normalizedEntropy _ => false
  | .entropyDomainShare => false

structure Dataset.Addressable (d : Dataset) : Prop where
  records : d.records < 2 ^ 64
  hierarchies : d.hierarchies.length < 2 ^ 64
  height : ∀ h ∈ d.hierarchies, h.height < 2 ^ 64

theorem abs_neg_mkRat_le (a b : ℕ) : |(-mkRat a b : ℚ)| ≤ a := by
  rw [abs_neg, Rat.mkRat_eq_div, Int.cast_natCast, abs_of_nonneg (by positivity)]
  rcases Nat.eq_zero_or_pos b with rfl | hb
  · simp
  · exact div_le_self (Nat.cast_nonneg a) (by exact_mod_cast hb)

theorem Grouping.sum_squares_le (g : Grouping) :
    (g.classes.map fun e => e.count * e.count).sum ≤ g.totalCount * g.totalCount := by
  unfold totalCount
  induction g.classes with
  | nil => exact le_rfl
  | cons e rest ih =>
    rw [List.map_cons, List.map_cons, List.sum_cons, List.sum_cons, Nat.add_mul, Nat.mul_add]
    exact Nat.add_le_add (Nat.le_add_right _ _)
      (ih.trans (Nat.mul_le_mul_left _ (Nat.le_add_left _ _)))

theorem max?_le_sum (levels : List ℕ) : levels.max?.getD 0 ≤ levels.sum := by
  cases h : levels.max? with
  | none => exact Nat.zero_le _
  | some level => exact List.le_sum_of_mem (List.max?_mem h)

namespace Metric

theorem score_le {choice : MetricChoice} (hchoice : choice.countsScores = true)
    {order : IterationOrder} {d : Dataset} {m : Metric}
    (hm : (ofChoice order choice).prepare d = .ok m) (levels : List Nat) (g : Grouping) :
    ∃ score, m.score levels g = .ok score ∧
      |score| ≤ (levels.sum + g.totalCount * g.totalCount : ℕ) := by
  have hlevels : ∀ {score : ℚ} {a : ℕ}, |score| ≤ a → a ≤ levels.sum →
      |score| ≤ (levels.sum + g.totalCount * g.totalCount : ℕ) := fun hscore ha =>
    hscore.trans (by exact_mod_cast ha.trans (Nat.le_add_right _ _))
  have hnat : ∀ a : ℕ, |((-(a : ℤ) : ℤ) : ℚ)| ≤ a := fun a => by simp
  cases choice with
  | height aggregate =>
    cases hm
    cases aggregate with
    | sum => exact ⟨_, rfl, hlevels (hnat _) le_rfl⟩
    | maximum => exact ⟨_, rfl, hlevels (hnat _) (max?_le_sum levels)⟩
    | arithmeticMean => exact ⟨_, rfl, hlevels (abs_neg_mkRat_le _ _) le_rfl⟩
    | geometricMean => cases hchoice
  | normalizedEntropy aggregate => cases hchoice
  | discernability =>
    cases hm
    refine ⟨_, rfl, (abs_neg_mkRat_le _ _).trans ?_⟩
    exact_mod_cast g.sum_squares_le.trans (Nat.le_add_left _ _)
  | entropyDomainShare => cases hchoice

end Metric

namespace Dataset

/-- So many levels of addressable hierarchies do not add up to much. -/
theorem Admits.sum_le {d : Dataset} (hd : d.Addressable) {levels : List Nat}
    (hl : d.Admits levels) : levels.sum ≤ 2 ^ 64 * 2 ^ 64 := by
  have hbound : ∀ level ∈ levels, level ≤ 2 ^ 64 := by
    intro level hlevel
    obtain ⟨i, hi, rfl⟩ := List.getElem_of_mem hlevel
    have hheight := (List.forall₂_iff_get.mp hl).2 i (hl.length_eq ▸ hi) hi
    exact hheight.le.trans (hd.height _ (List.get_mem _ _)).le
  have hsum := List.sum_le_card_nsmul levels (2 ^ 64) hbound
  rw [smul_eq_mul, hl.length_eq] at hsum
  exact hsum.trans (Nat.mul_le_mul_right _ hd.hierarchies.le)

end Dataset

namespace Checker

/-- A new checker finds scores of counted things for all groupings of an addressable dataset. -/
theorem scores_create {d : Dataset} (hd : d.Addressable) {criteria : List Criterion}
    {order : IterationOrder} {choice : MetricChoice} (hchoice : choice.countsScores = true)
    {settings : CheckerSettings} {c : Checker}
    (hc : create d criteria (.ofChoice order choice) settings = .ok c) : c.Scores := by
  obtain ⟨prepared, -, hc⟩ := bind_eq_ok.mp hc
  obtain ⟨metric, hmetric, hc⟩ := bind_eq_ok.mp hc
  cases hc
  intro levels g hl hg
  obtain ⟨score, hscore, hle⟩ := Metric.score_le hchoice hmetric levels g
  have hcount : g.totalCount ≤ 2 ^ 64 := hg.count.trans hd.records.le
  have htotal : levels.sum + g.totalCount * g.totalCount ≤ 2 ^ 129 :=
    (Nat.add_le_add (hl.sum_le hd) (Nat.mul_le_mul hcount hcount)).trans_eq (by norm_num)
  refine ⟨score, hscore, ?_⟩
  calc |score| ≤ (levels.sum + g.totalCount * g.totalCount : ℕ) := hle
    _ ≤ 2 ^ 129 := by exact_mod_cast htotal
    _ ≤ 2 ^ 1023 := pow_le_pow_right₀ one_le_two (by decide)

end Checker
end Recoding
