import Recoding.Proofs.Binary64.Arithmetic
import Recoding.Proofs.Grouping.Sizes
import Recoding.Proofs.Loss.Sensitivity

/-!
# Monotone metrics

Heights grow with the levels, and so do the sums of squared class sizes, since generalizing
further merges classes. Both losses keep their bounds and their order as doubles: rounding
preserves the order of heights, and sums of squares are not rounded while they are small.
-/

namespace Recoding

open Binary64

/-! ## Heights -/

theorem Aggregate.below_fold {a : Aggregate} (ha : a ≠ .geometricMean) {xs ys : List Float}
    (h : List.Forall₂ Below xs ys) (hsize : a = .arithmeticMean → xs.length < 2 ^ 64) :
    Below (a.fold xs) (a.fold ys) := by
  have hlength := h.length_eq
  cases h with
  | nil =>
    have hzero : Below 0.0 0.0 :=
      ⟨by decide, by decide, le_rfl, by decide⟩
    exact hzero
  | @cons x y xs ys hfirst hrest =>
    have hsum : Below (Binary64.sum (x :: xs)) (Binary64.sum (y :: ys)) := hfirst.sum hrest
    cases a with
    | sum => exact hsum
    | maximum =>
      show Below ((x :: xs).foldl larger (infinity true)) ((y :: ys).foldl larger (infinity true))
      rw [List.foldl_cons, List.foldl_cons, larger_negativeInfinity hfirst.nonneg_left.number,
        larger_negativeInfinity hfirst.nonneg_right.number]
      exact hfirst.foldl_larger hrest
    | arithmeticMean =>
      have hsize := hsize rfl
      show Below (Binary64.sum (x :: xs) / ofCount (x :: xs).length)
        (Binary64.sum (y :: ys) / ofCount (y :: ys).length)
      rw [← hlength]
      exact hsum.div (finite_ofCount hsize.le) (ofCount_pos (by simp))
    | geometricMean => exact absurd rfl ha

theorem Metric.below_heightLoss {a : Aggregate} (ha : a ≠ .geometricMean) {low high : List Nat}
    (h : List.Forall₂ (· ≤ ·) low high) (hsize : a = .arithmeticMean → low.length < 2 ^ 64) :
    Below (heightLoss a low).value (heightLoss a high).value := by
  refine Aggregate.below_fold ha ?_ (by simpa using hsize)
  rw [List.forall₂_map_left_iff, List.forall₂_map_right_iff]
  exact h.imp fun _ _ => below_ofCount

/-! ## Squares -/

theorem counts_square {n : Nat} (h : n * n < 2 ^ 53) :
    Counts (ofCount n * ofCount n) (n * n) := by
  have hn : n < 2 ^ 53 := (Nat.le_mul_self n).trans_lt h
  exact (counts_ofCount hn).mul (counts_ofCount hn) h

/-- Squares are summed without rounding as long as their sum is small. -/
theorem counts_sum_squares {n : Nat} {ns : List Nat}
    (h : ((n :: ns).map fun m => m * m).sum < 2 ^ 53) :
    Counts (sum ((n :: ns).map fun m => ofCount m * ofCount m))
      ((n :: ns).map fun m => m * m).sum := by
  have hcount : ∀ m ∈ n :: ns, Counts (ofCount m * ofCount m) (m * m) := by
    intro m hmem
    have hle : m * m ≤ ((n :: ns).map fun m => m * m).sum :=
      List.single_le_sum (by simp) _ (List.mem_map.mpr ⟨m, hmem, rfl⟩)
    exact counts_square (hle.trans_lt h)
  have hrest : List.Forall₂ Counts (ns.map fun m => ofCount m * ofCount m)
      (ns.map fun m => m * m) := by
    rw [List.forall₂_map_left_iff, List.forall₂_map_right_iff, List.forall₂_same]
    exact fun m hmem => hcount m (List.mem_cons_of_mem _ hmem)
  exact (hcount n List.mem_cons_self).sum hrest h

/-- The sum of no squares is a negative zero. -/
theorem equals_sum_squares {ns : List Nat} (h : (ns.map fun m => m * m).sum < 2 ^ 53) :
    Equals (-0.0 + sum (ns.map fun m => ofCount m * ofCount m)) (ns.map fun m => m * m).sum := by
  cases ns with
  | nil => exact equals_negativeZero
  | cons n ns => exact (counts_sum_squares h).negativeZero_add.equals

/-! ## Losses and bounds of scans -/

namespace Metric

/-- The metrics that are regular on every dataset: heights that are not averaged geometrically,
where the number of attributes fits into a word, and discernability, where the squared size of
the research subset needs no rounding. -/
def Plain (d : Dataset) : Metric → Prop
  | .height .sum => True
  | .height .maximum => True
  | .height .arithmeticMean => d.hierarchies.length < 2 ^ 64
  | .discernability _ => d.subsetSize * d.subsetSize < 2 ^ 53
  | _ => False

/-- The metrics whose score is a quotient of natural numbers: heights that are not averaged
geometrically, and discernability. -/
def Counting : Metric → Prop
  | .height aggregate => aggregate ≠ .geometricMean
  | .discernability _ => True
  | _ => False

def scanLoss (m : Metric) (d : Dataset) (levels : List Nat) (tracks : Bool)
    (workers minRecords : Nat) : Except Failure BoundedLoss := do
  let m ← m.prepare d
  let g ← Failure.found (d.group? levels .records tracks workers minRecords)
  m.loss levels g

def levelBound (m : Metric) (d : Dataset) (levels : List Nat) : Except Failure (Option Loss) := do
  let m ← m.prepare d
  m.lowerBound levels

section
variable {d : Dataset} (hd : d.WellFormed) {levels : List Nat} (hl : d.Admits levels)
include hd hl

theorem scanLoss_height (a : Aggregate) (tracks : Bool) (workers minRecords : Nat) :
    (height a).scanLoss d levels tracks workers minRecords =
      .ok ⟨heightLoss a levels, some (heightLoss a levels)⟩ := by
  unfold scanLoss
  rw [hd.group_records hl]
  rfl

theorem scanScore_height (a : Aggregate) (tracks : Bool) (workers minRecords : Nat) :
    (height a).scanScore d levels tracks workers minRecords =
      (height a).score levels (d.grouping tracks levels) := by
  unfold scanScore
  rw [hd.group_records hl]
  rfl

theorem scanLoss_discernability (prior : Option Nat) (tracks : Bool) (workers minRecords : Nat) :
    ∃ loss, (discernability prior).scanLoss d levels tracks workers minRecords =
        .ok ⟨loss, some (.scalar (ofCount d.subsetSize))⟩ ∧
      loss.value = -0.0 + Binary64.sum (((d.grouping tracks levels).classes.map (·.count)).map
        fun n => ofCount n * ofCount n) := by
  refine ⟨.scalar (Binary64.sum ((d.grouping tracks levels).classes.map
    fun e => ofCount e.count * ofCount e.count)), ?_, ?_⟩
  · unfold scanLoss
    rw [hd.group_records hl]
    rfl
  · rw [List.map_map]
    rfl

end

/-! ## Generalizing further -/

theorem max_mono {low high : List Nat} (hle : List.Forall₂ (· ≤ ·) low high) :
    low.max?.getD 0 ≤ high.max?.getD 0 := by
  cases hle with
  | nil => exact le_rfl
  | @cons x y low high hfirst hrest =>
    obtain ⟨m, hm⟩ : ∃ m, (x :: low).max? = some m := by
      rw [← Option.isSome_iff_exists, List.isSome_max?_iff]
      exact List.cons_ne_nil x low
    obtain ⟨hmem, -⟩ := List.max?_eq_some_iff.mp hm
    obtain ⟨i, hi, rfl⟩ := List.getElem_of_mem hmem
    have hall : List.Forall₂ (· ≤ ·) (x :: low) (y :: high) := .cons hfirst hrest
    have hj : i < (y :: high).length := hall.length_eq ▸ hi
    rw [hm, Option.getD_some]
    exact (hall.get hi hj).trans (List.le_max?_getD_of_mem (List.getElem_mem hj))

theorem score_height_anti {a : Aggregate} (ha : a ≠ .geometricMean) {low high : List Nat}
    (hle : List.Forall₂ (· ≤ ·) low high) (g h : Grouping) :
    ∃ q r, (height a).score low g = .ok q ∧ (height a).score high h = .ok r ∧ r ≤ q := by
  cases a with
  | sum =>
    refine ⟨_, _, rfl, rfl, neg_le_neg ?_⟩
    exact_mod_cast hle.sum_le_sum
  | maximum =>
    refine ⟨_, _, rfl, rfl, neg_le_neg ?_⟩
    exact_mod_cast max_mono hle
  | arithmeticMean =>
    refine ⟨_, _, rfl, rfl, neg_le_neg ?_⟩
    rw [Rat.mkRat_eq_div, Rat.mkRat_eq_div, hle.length_eq]
    refine div_le_div_of_nonneg_right ?_ (Nat.cast_nonneg _)
    exact_mod_cast hle.sum_le_sum
  | geometricMean => exact absurd rfl ha

/-- What the losses and the bounds of some levels and of higher ones satisfy. -/
structure Rising (fine fineBound coarse coarseBound : Loss) : Prop where
  loss : fine.value ≤ coarse.value
  bounded : fineBound.value ≤ fine.value
  bound : fineBound.value ≤ coarseBound.value

theorem rising_height {a : Aggregate} (ha : a ≠ .geometricMean) {low high : List Nat}
    (hle : List.Forall₂ (· ≤ ·) low high) (hsize : a = .arithmeticMean → low.length < 2 ^ 64) :
    Rising (heightLoss a low) (heightLoss a low) (heightLoss a high) (heightLoss a high) := by
  have hself : List.Forall₂ (· ≤ ·) low low := List.forall₂_same.mpr fun _ _ => le_rfl
  have hmono := (below_heightLoss ha hle hsize).le
  exact ⟨hmono, (below_heightLoss ha hself hsize).le, hmono⟩

section
variable {d : Dataset} (hd : d.WellFormed) {low high : List Nat}
  (hle : List.Forall₂ (· ≤ ·) low high) (hh : d.Admits high)
include hd

/-- The loss is the number of pairs of records in one class, as long as it needs no rounding. -/
theorem equals_pairs (hsize : d.subsetSize * d.subsetSize < 2 ^ 53) (tracks : Bool)
    (levels : List Nat) :
    Equals (-0.0 + Binary64.sum (((d.grouping tracks levels).classes.map (·.count)).map
      fun n => ofCount n * ofCount n)) (d.pairs levels) := by
  have hsquares : (((d.grouping tracks levels).classes.map (·.count)).map fun n => n * n).sum =
      d.pairs levels := by
    rw [List.map_map]
    exact Dataset.sum_squares d tracks levels
  have hbound := d.pairs_le levels
  rw [hd.card_members] at hbound
  rw [← hsquares] at hbound ⊢
  exact equals_sum_squares (hbound.trans_lt hsize)

include hle hh

/-- Every record is in one class with itself, and further generalization only adds pairs. -/
theorem rising_discernability (hsize : d.subsetSize * d.subsetSize < 2 ^ 53)
    (tracks tracksHigh : Bool) {fine coarse : Loss}
    (hfine : fine.value = -0.0 + Binary64.sum
      (((d.grouping tracks low).classes.map (·.count)).map fun n => ofCount n * ofCount n))
    (hcoarse : coarse.value = -0.0 + Binary64.sum
      (((d.grouping tracksHigh high).classes.map (·.count)).map fun n => ofCount n * ofCount n)) :
    Rising fine (.scalar (ofCount d.subsetSize)) coarse (.scalar (ofCount d.subsetSize)) := by
  have hbound : Equals (Loss.scalar (ofCount d.subsetSize)).value d.subsetSize :=
    (counts_ofCount ((Nat.le_mul_self _).trans_lt hsize)).negativeZero_add.equals
  refine ⟨?_, ?_, hbound.le hbound le_rfl⟩
  · rw [hfine, hcoarse]
    exact (equals_pairs hd hsize tracks low).le (equals_pairs hd hsize tracksHigh high)
      (hd.pairs_mono hle hh)
  · rw [hfine]
    exact hbound.le (equals_pairs hd hsize tracks low) (hd.subsetSize_le_pairs low)

end

/-- Generalizing further lowers neither the loss of a scan nor its bound, and no bound exceeds
the loss of its levels, for heights that are not averaged geometrically and for discernability
while the squared size of the research subset needs no rounding. Their exact scores do not
grow, whatever the size of the subset is. -/
theorem scan_monotone {d : Dataset} (hd : d.Accepted) {low high : List Nat}
    (hle : List.Forall₂ (· ≤ ·) low high) (hh : d.Admits high) (tracks tracksHigh : Bool)
    (workers workersHigh minRecords minRecordsHigh : Nat) :
    (∀ m : Metric, m.Plain d → ∃ fine coarse fineBound coarseBound,
      m.scanLoss d low tracks workers minRecords = .ok ⟨fine, some fineBound⟩ ∧
      m.scanLoss d high tracksHigh workersHigh minRecordsHigh = .ok ⟨coarse, some coarseBound⟩ ∧
      m.levelBound d low = .ok (some fineBound) ∧
      m.levelBound d high = .ok (some coarseBound) ∧
      fine.value ≤ coarse.value ∧ fineBound.value ≤ fine.value ∧
      fineBound.value ≤ coarseBound.value) ∧
    ∀ m : Metric, m.Counting → ∃ q r,
      m.scanScore d low tracks workers minRecords = .ok q ∧
      m.scanScore d high tracksHigh workersHigh minRecordsHigh = .ok r ∧ r ≤ q := by
  have hwell := hd.wellFormed
  have hl := hh.of_le hle
  refine ⟨fun m hm => ?_, fun m hm => ?_⟩
  · cases m with
    | height a =>
      have ha : a ≠ .geometricMean := by
        rintro rfl
        exact hm
      have hsize : a = .arithmeticMean → low.length < 2 ^ 64 := by
        rintro rfl
        rw [hl.length_eq]
        exact hm
      have hrising := rising_height ha hle hsize
      exact ⟨_, _, _, _, scanLoss_height hwell hl a tracks workers minRecords,
        scanLoss_height hwell hh a tracksHigh workersHigh minRecordsHigh, rfl, rfl,
        hrising.loss, hrising.bounded, hrising.bound⟩
    | discernability prior =>
      obtain ⟨fine, hscan, hfine⟩ :=
        scanLoss_discernability hwell hl prior tracks workers minRecords
      obtain ⟨coarse, hrescan, hcoarse⟩ :=
        scanLoss_discernability hwell hh prior tracksHigh workersHigh minRecordsHigh
      have hrising := rising_discernability hwell hle hh hm tracks tracksHigh hfine hcoarse
      exact ⟨fine, coarse, _, _, hscan, hrescan, rfl, rfl, hrising.loss, hrising.bounded,
        hrising.bound⟩
    | normalizedEntropy => exact hm.elim
    | entropyDomainShare => exact hm.elim
  · cases m with
    | height a =>
      rw [scanScore_height hwell hl, scanScore_height hwell hh]
      exact score_height_anti hm hle _ _
    | discernability prior =>
      refine ⟨_, _, scanScore_discernability hwell hl prior tracks workers minRecords,
        scanScore_discernability hwell hh prior tracksHigh workersHigh minRecordsHigh,
        neg_le_neg ?_⟩
      refine div_le_div_of_nonneg_right ?_ (Nat.cast_nonneg _)
      exact_mod_cast hwell.pairs_mono hle hh
    | normalizedEntropy => exact hm.elim
    | entropyDomainShare => exact hm.elim

/-- Generalizing the sample to a single class doubles the pairs of records in one class. -/
theorem scan_monotone_sample :
    (∃ fine coarse fineBound coarseBound,
      (discernability none).scanLoss Sample.dataset [0] false 1 1 = .ok ⟨fine, some fineBound⟩ ∧
      (discernability none).scanLoss Sample.dataset [1] true 2 1 = .ok ⟨coarse, some coarseBound⟩ ∧
      fine.value ≤ coarse.value ∧ fineBound.value ≤ fine.value ∧
      fineBound.value ≤ coarseBound.value) ∧
    ∃ q r, (height .arithmeticMean).scanScore Sample.dataset [0] false 1 1 = .ok q ∧
      (height .arithmeticMean).scanScore Sample.dataset [1] true 2 1 = .ok r ∧ r ≤ q := by
  have hadmits : Sample.dataset.Admits [1] := .cons (by decide) .nil
  obtain ⟨hlosses, hscores⟩ := scan_monotone Sample.dataset_accepted
    (.cons (by decide) .nil : List.Forall₂ (· ≤ ·) [0] [1]) hadmits false true 1 2 1 1
  constructor
  · have hplain : (discernability none).Plain Sample.dataset :=
      show Sample.dataset.subsetSize * Sample.dataset.subsetSize < 2 ^ 53 by decide
    obtain ⟨fine, coarse, fineBound, coarseBound, hfine, hcoarse, -, -, hrest⟩ :=
      hlosses (discernability none) hplain
    exact ⟨fine, coarse, fineBound, coarseBound, hfine, hcoarse, hrest⟩
  · have hcounting : (height .arithmeticMean).Counting := nofun
    exact hscores (height .arithmeticMean) hcounting

end Metric
end Recoding
