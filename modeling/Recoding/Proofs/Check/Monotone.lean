import Recoding.Proofs.Check.Total
import Recoding.Proofs.Grouping.Rows

/-!
# Monotone criteria

Generalizing further only enlarges classes. Monotone criteria keep accepting a class that
grows, so a dataset that is anonymous at some levels is anonymous at all higher ones.
-/

namespace Recoding

/-- What a class has gained when it has grown. -/
structure EquivalenceClass.Grows (e bigger : EquivalenceClass) : Prop where
  count : e.count ≤ bigger.count
  distribution : ∀ x ∈ e.distribution, ∃ y ∈ bigger.distribution, x.distinct ≤ y.distinct

theorem Criterion.admits_grows {c : Criterion} (hc : c.isMonotone = true) (low high : List Nat)
    {e bigger : EquivalenceClass} (hg : e.Grows bigger) (h : c.admits low e = .ok true) :
    c.admits high bigger = .ok true := by
  cases c with
  | inclusion size => rfl
  | kAnonymity k =>
    have hk : k ≤ e.count := by simpa [admits] using h
    simpa [admits] using hk.trans hg.count
  | distinctDiversity l =>
    cases hx : e.distribution with
    | none => simp [admits, hx] at h
    | some x =>
      obtain ⟨y, hy, hle⟩ := hg.distribution x hx
      have hl : l ≤ x.distinct := by simpa [admits, hx] using h
      have hy : bigger.distribution = some y := hy
      simpa [admits, hy] using hl.trans hle
  | profitability attacker payoffs shares floor => cases hc

theorem Dataset.classOfRows_grows (d : Dataset) (tracks : Bool) (key other : List Nat)
    {rows more : List Nat} (h : rows.Sublist more) :
    (d.classOfRows tracks key rows).Grows (d.classOfRows tracks other more) where
  count := h.countP_le
  distribution x hx := by
    cases tracks with
    | false => cases hx
    | true =>
      have hx : Distribution.joint (rows.map d.recordDistribution) = some x := hx
      have hsome : (Distribution.joint (more.map d.recordDistribution)).isSome := by
        rw [(Distribution.joint_spec (d.canonical_recordDistributions more)).1]
        obtain ⟨y, hy⟩ := (Distribution.joint_spec (d.canonical_recordDistributions rows)).1.mp
          (by rw [hx]; rfl)
        exact ⟨y, (h.map _).subset hy⟩
      obtain ⟨y, hy⟩ := Option.isSome_iff_exists.mp hsome
      refine ⟨y, hy, ?_⟩
      rw [distinct_joint hx, distinct_joint hy]
      refine Finset.card_le_card fun v hv => ?_
      rw [List.mem_toFinset] at hv ⊢
      exact ((h.filter _).filterMap _).subset hv

namespace Checker

section
variable {c : Checker} (hd : c.dataset.WellFormed) (hc : c.Ready)
include hd hc

/-- A dataset is anonymous if all criteria admit all classes with records in the subset. -/
theorem anonymousAt_iff {levels : List Nat} (hl : c.dataset.Admits levels) :
    c.anonymousAt levels = true ↔ ∀ criterion ∈ c.criteria, ∀ e ∈ (c.grouping levels).classes,
      e.count = 0 ∨ criterion.admits levels e = .ok true := by
  obtain ⟨e, g, hscan⟩ := fullScan_ok hl hd hc
  rw [← (fullScan_answers hscan).1]
  exact Grouping.analyze_true (evaluate_ok hscan).1

theorem anonymousAt_mono (hm : c.criteria.all Criterion.isMonotone = true)
    {low high : List Nat} (hle : List.Forall₂ (· ≤ ·) low high) (hl : c.dataset.Admits high)
    (h : c.anonymousAt low = true) : c.anonymousAt high = true := by
  rw [anonymousAt_iff hd hc (hl.of_le hle)] at h
  rw [anonymousAt_iff hd hc hl]
  intro criterion hcriterion bigger hbigger
  obtain ⟨first, -, rfl⟩ := Dataset.mem_grouping.mp hbigger
  by_cases hcount : (c.dataset.classOfRows c.tracks (c.dataset.key high first)
      (c.dataset.rowsWith high (c.dataset.key high first))).count = 0
  · exact Or.inl hcount
  · obtain ⟨row, hrow, hmember⟩ := List.countP_pos_iff.mp (Nat.pos_of_ne_zero hcount)
    obtain ⟨hrecord, hkey⟩ := Dataset.mem_rowsWith.mp hrow
    rw [← hkey]
    right
    have hmem := Dataset.mem_grouping.mpr
      ⟨row, hrecord, (rfl : c.dataset.classOfRows c.tracks (c.dataset.key low row) _ = _)⟩
    have hgrows := c.dataset.classOfRows_grows c.tracks (c.dataset.key low row)
      (c.dataset.key high row) (hd.rowsWith_sublist hle hl hrecord)
    refine Criterion.admits_grows (List.all_eq_true.mp hm criterion hcriterion) low high hgrows ?_
    refine (h criterion hcriterion _ hmem).resolve_left ?_
    have hpos : 0 < (c.dataset.rowsWith low (c.dataset.key low row)).countP
        c.dataset.member :=
      List.countP_pos_iff.mpr ⟨row, Dataset.mem_rowsWith.mpr ⟨hrecord, rfl⟩, hmember⟩
    exact hpos.ne'

end

end Checker
end Recoding
