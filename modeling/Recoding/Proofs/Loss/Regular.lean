import Recoding.Proofs.Check.Total
import Recoding.Proofs.Loss.Monotone

/-!
# Regular metrics

A metric is regular if it does what its declarations promise on the transformations of a
lattice. Heights that are not averaged geometrically are regular because rounding preserves
order, and so is discernability as long as it needs no rounding.
-/

namespace Recoding

open Binary64

namespace Checker

/-- A metric that measures no NaN, whose bound never exceeds the loss, and whose loss never
decreases from a transformation to its successors if it declares itself monotone. -/
structure Regular (c : Checker) (l : Lattice) : Prop where
  number : ∀ levels, Lattice.Within l.axes levels → (c.lossAt levels).isNaN = false
  bounded : ∀ levels, Lattice.Within l.axes levels → c.boundAt levels ≤ c.lossAt levels
  monotone : c.metric.isMonotone = true → ∀ low high, Lattice.Within l.axes low →
    Lattice.Within l.axes high → Lattice.Raises low high → c.lossAt low ≤ c.lossAt high

/-- A metric whose losses have one sign, and whose bounds are the losses or all the same. -/
structure Sharp (c : Checker) (l : Lattice) : Prop where
  monotone : c.metric.isMonotone = true
  signed : ∀ low high, Lattice.Within l.axes low → Lattice.Within l.axes high →
    Binary64.isNegative (c.lossAt low) = Binary64.isNegative (c.lossAt high)
  bound : (∀ levels, Lattice.Within l.axes levels → c.boundAt levels = c.lossAt levels) ∨
    ∀ low high, Lattice.Within l.axes low → Lattice.Within l.axes high →
      c.boundAt low = c.boundAt high

section
variable {c : Checker} (hd : c.dataset.WellFormed) (hc : c.Ready) {levels : List Nat}
  (hl : c.dataset.Admits levels)
include hd hc hl

theorem lossAt_height {a : Aggregate} (hm : c.metric = .height a) :
    c.lossAt levels = (Metric.heightLoss a levels).value := by
  obtain ⟨judged, measured, -, hmeasured, hloss⟩ := exists_lossAt hl hd hc
  rw [hm] at hmeasured
  cases hmeasured
  exact hloss

omit hd hc hl in
theorem boundAt_height {a : Aggregate} (hm : c.metric = .height a) :
    c.boundAt levels = (Metric.heightLoss a levels).value := by
  rw [boundAt, hm]
  rfl

omit hd hc hl in
theorem counts_eq {judged : Grouping} (h : judged.unjudged = c.grouping levels) :
    judged.classes.map (·.count) = (c.grouping levels).classes.map (·.count) := by
  rw [← h, Grouping.unjudged, List.map_map]
  rfl

theorem lossAt_discernability {size : Nat} (hm : c.metric = .discernability (some size)) :
    c.lossAt levels = -0.0 + Binary64.sum
      (((c.grouping levels).classes.map (·.count)).map fun n => ofCount n * ofCount n) := by
  obtain ⟨judged, measured, hjudged, hmeasured, hloss⟩ := exists_lossAt hl hd hc
  rw [hm] at hmeasured
  cases hmeasured
  rw [hloss, ← counts_eq hjudged, List.map_map]
  rfl

theorem lossAt_equals (hm : c.metric = .discernability (some c.dataset.subsetSize))
    (hsize : c.dataset.subsetSize * c.dataset.subsetSize < 2 ^ 53) :
    Equals (c.lossAt levels) (c.dataset.pairs levels) := by
  rw [lossAt_discernability hd hc hl hm]
  exact Metric.equals_pairs hd hsize c.tracks levels

/-- Without any records there are no squares to add, and the loss is a negative zero. -/
theorem lossAt_sign (hm : c.metric = .discernability (some c.dataset.subsetSize))
    (hsize : c.dataset.subsetSize * c.dataset.subsetSize < 2 ^ 53) :
    isNegative (c.lossAt levels) = decide (c.dataset.records = 0) := by
  rw [lossAt_discernability hd hc hl hm]
  rcases Nat.eq_zero_or_pos c.dataset.records with hr | hr
  · have hclasses : (c.grouping levels).classes = [] := by
      refine List.eq_nil_iff_forall_not_mem.mpr fun e he => ?_
      obtain ⟨row, hrow, -⟩ := Dataset.mem_grouping.mp he
      omega
    rw [hclasses, decide_eq_true hr]
    decide
  · have hsquares : (((c.grouping levels).classes.map (·.count)).map fun n => n * n).sum <
        2 ^ 53 := by
      have hbound := (c.dataset.sum_squares_bounds c.tracks levels).2
      rw [hd.card_members] at hbound
      rw [List.map_map]
      exact hbound.trans_lt hsize
    obtain ⟨n, ns, hcounts⟩ := List.exists_cons_of_ne_nil
      (mt List.map_eq_nil_iff.mp (Dataset.classes_ne_nil hr c.tracks levels))
    rw [decide_eq_false hr.ne', grouping, hcounts]
    rw [grouping, hcounts] at hsquares
    exact (counts_sum_squares hsquares).negativeZero_add.sign

omit hd hc hl in
theorem boundAt_equals (hm : c.metric = .discernability (some c.dataset.subsetSize))
    (hsize : c.dataset.subsetSize * c.dataset.subsetSize < 2 ^ 53) :
    Equals (c.boundAt levels) c.dataset.subsetSize := by
  have hbound : c.boundAt levels = -0.0 + ofCount c.dataset.subsetSize := by
    rw [boundAt, hm]
    rfl
  rw [hbound]
  exact (counts_ofCount ((Nat.le_mul_self _).trans_lt hsize)).negativeZero_add.equals

end

section
variable {c : Checker} (hd : c.dataset.WellFormed) (hc : c.Ready) {l : Lattice}
  (hl : c.dataset.Covers l)
include hd hc hl

theorem regular_height {a : Aggregate} (hm : c.metric = .height a) (ha : a ≠ .geometricMean)
    (hsize : a = .arithmeticMean → c.dataset.hierarchies.length < 2 ^ 64) :
    c.Regular l ∧ c.Sharp l := by
  have hadmits : ∀ levels, Lattice.Within l.axes levels → c.dataset.Admits levels :=
    fun levels hlevels => hl.of_le hlevels.le_high
  have hbelow : ∀ low high, Lattice.Within l.axes low → Lattice.Within l.axes high →
      List.Forall₂ (· ≤ ·) low high → Below (c.lossAt low) (c.lossAt high) := by
    intro low high hlow hhigh hle
    rw [lossAt_height hd hc (hadmits low hlow) hm, lossAt_height hd hc (hadmits high hhigh) hm]
    exact Metric.below_heightLoss ha hle (by rwa [(hadmits low hlow).length_eq])
  have hself : ∀ levels, Lattice.Within l.axes levels → Below (c.lossAt levels) (c.lossAt levels) :=
    fun levels hlevels =>
      hbelow levels levels hlevels hlevels (List.forall₂_same.mpr fun _ _ => le_rfl)
  have hbound : ∀ levels, Lattice.Within l.axes levels → c.boundAt levels = c.lossAt levels :=
    fun levels hlevels => by
      rw [boundAt_height hm, lossAt_height hd hc (hadmits levels hlevels) hm]
  refine ⟨⟨fun levels hlevels => ?_, fun levels hlevels => ?_, fun _ low high hlow hhigh hraises =>
    (hbelow low high hlow hhigh hraises.le).le⟩, ⟨by rw [hm]; rfl, fun low high hlow hhigh => ?_,
    Or.inl hbound⟩⟩
  · exact isNaN_eq_false.mpr (hself levels hlevels).number
  · rw [hbound levels hlevels]
    exact (hself levels hlevels).le
  · rw [(hself low hlow).left, (hself high hhigh).left]

theorem regular_discernability (hm : c.metric = .discernability (some c.dataset.subsetSize))
    (hsize : c.dataset.subsetSize * c.dataset.subsetSize < 2 ^ 53) :
    c.Regular l ∧ c.Sharp l := by
  have hadmits : ∀ levels, Lattice.Within l.axes levels → c.dataset.Admits levels :=
    fun levels hlevels => hl.of_le hlevels.le_high
  have hloss : ∀ levels, Lattice.Within l.axes levels →
      Equals (c.lossAt levels) (c.dataset.pairs levels) :=
    fun levels hlevels => lossAt_equals hd hc (hadmits levels hlevels) hm hsize
  refine ⟨⟨fun levels hlevels => ?_, fun levels hlevels => ?_, fun _ low high hlow hhigh hraises =>
    ?_⟩, ⟨by rw [hm]; rfl, fun low high hlow hhigh => ?_, Or.inr fun low high _ _ => ?_⟩⟩
  · exact isNaN_eq_false.mpr (hloss levels hlevels).number
  · exact (boundAt_equals hm hsize).le (hloss levels hlevels) (hd.subsetSize_le_pairs levels)
  · exact (hloss low hlow).le (hloss high hhigh)
      (hd.pairs_mono hraises.le (hadmits high hhigh))
  · rw [lossAt_sign hd hc (hadmits low hlow) hm hsize,
      lossAt_sign hd hc (hadmits high hhigh) hm hsize]
  · rw [boundAt, boundAt, hm]
    rfl

end

theorem regular_plain {d : Dataset} (hd : d.WellFormed) {criteria : List Criterion}
    {metric : Metric} {settings : CheckerSettings} {c : Checker}
    (hc : create d criteria metric settings = .ok c) {l : Lattice} (hl : d.Covers l)
    (hplain : metric.Plain d) : c.Regular l ∧ c.Sharp l := by
  have hready := ready_create hc
  obtain ⟨prepared, -, h⟩ := bind_eq_ok.mp hc
  obtain ⟨measured, hmeasured, h⟩ := bind_eq_ok.mp h
  cases h
  cases metric with
  | height a =>
    cases hmeasured
    cases a with
    | sum => exact regular_height hd hready hl rfl nofun nofun
    | maximum => exact regular_height hd hready hl rfl nofun nofun
    | arithmeticMean => exact regular_height hd hready hl rfl nofun fun _ => hplain
    | geometricMean => exact hplain.elim
  | discernability size =>
    cases hmeasured
    exact regular_discernability hd hready hl rfl hplain
  | normalizedEntropy => exact hplain.elim
  | entropyDomainShare => exact hplain.elim

end Checker
end Recoding
