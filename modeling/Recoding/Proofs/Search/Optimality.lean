import Recoding.Proofs.Lattice.Descents
import Recoding.Proofs.Loss.Regular
import Recoding.Proofs.Sample
import Recoding.Proofs.Search.Exhaustive
import Recoding.Proofs.Search.Sanity

/-!
# Optimality of best-first search

On a new solution space everything is open, so a best-first search without limits finds a
transformation that loses the least among all anonymous ones. On a space that earlier searches
have left behind it can miss it: what they have visited is not queued again.
-/

namespace Recoding

namespace Checker

/-- An anonymous transformation that loses at most what any other anonymous one loses. -/
structure Minimal (c : Checker) (l : Lattice) (levels : List Nat) : Prop where
  anonymous : c.anonymousAt levels = true
  least : ∀ other, Lattice.Within l.axes other → c.anonymousAt other = true →
    c.lossAt levels ≤ c.lossAt other

/-- An optimum that is minimal in the whole lattice, or none if nothing is anonymous. -/
structure Optimal (c : Checker) (l : Lattice) (optimum : Option Nat) : Prop where
  none : optimum = none ↔ ∀ levels, Lattice.Within l.axes levels → c.anonymousAt levels = false
  some : ∀ o, optimum = some o → ∃ levels, l.levelsOf o = .ok levels ∧ c.Minimal l levels

section
variable {c : Checker} {l : Lattice}

theorem Regular.guide (h : c.Regular l) : BestFirst.Guide c l
    (fun u v => c.lossAt (l.levelsAt u) ≤ c.lossAt (l.levelsAt v)) (fun _ _ => True) where
  trans _ _ _ := Binary64.le_trans
  ranked u v hranked := by
    refine Binary64.le_of_orderKey (h.number _ (Lattice.decode_within _ u))
      (h.number _ (Lattice.decode_within _ v)) ?_
    unfold Lattice.Ranked at hranked
    omega
  climbs hm u w hstep := h.monotone hm _ _ (Lattice.decode_within _ u) (Lattice.decode_within _ w)
    hstep.raises
  bounded o u _ hle := Binary64.le_trans hle (h.bounded _ (Lattice.decode_within _ u))
  before_trans _ _ _ _ _ := trivial
  queued _ _ _ := trivial
  rises _ _ _ := trivial

/-- Searches of sharp metrics prefer lower levels among equal losses, as long as the sums of the
levels do not wrap around. -/
theorem Regular.guide_sharp (h : c.Regular l) (hs : c.Sharp l) (hfits : l.maxLevels.sum < 2 ^ 32) :
    BestFirst.Guide c l (l.Ranked c.lossAt) (l.Ranked c.boundAt) := by
  have hwithin : ∀ u, Lattice.Within l.axes (l.levelsAt u) := Lattice.decode_within l.axes
  have hkey : ∀ u v, c.lossAt (l.levelsAt u) ≤ c.lossAt (l.levelsAt v) →
      Binary64.orderKey (c.lossAt (l.levelsAt u)) ≤ Binary64.orderKey (c.lossAt (l.levelsAt v)) :=
    fun u v hle => Binary64.orderKey_le hle fun hn => by
      rw [hs.signed _ _ (hwithin u) (hwithin v), hn]
  have htrans : ∀ value u v w, l.Ranked value u v → l.Ranked value v w → l.Ranked value u w := by
    intro value u v w huv hvw
    unfold Lattice.Ranked at *
    omega
  have hrises : ∀ u w, l.Step u w → levelSum (l.levelsAt u) ≤ levelSum (l.levelsAt w) := by
    intro u w hstep
    have hsum := hstep.raises.sum
    rw [l.levelSum_levelsAt hfits, l.levelSum_levelsAt hfits]
    omega
  have hclimbs : ∀ u w, l.Step u w → l.Ranked c.lossAt u w := by
    intro u w hstep
    have hle := hkey u w (h.monotone hs.monotone _ _ (hwithin u) (hwithin w) hstep.raises)
    have hrise := hrises u w hstep
    unfold Lattice.Ranked
    omega
  refine ⟨htrans c.lossAt, fun _ _ hranked => hranked, fun _ => hclimbs, ?_, htrans c.boundAt,
    fun _ _ hranked => hranked, ?_⟩
  · intro o u hbefore hle
    have hle := hkey o u (Binary64.le_trans hle (h.bounded _ (hwithin u)))
    rcases hs.bound with hexact | hconstant
    · unfold Lattice.Ranked at *
      rwa [hexact _ (hwithin o), hexact _ (hwithin u)] at hbefore
    · unfold Lattice.Ranked at *
      rw [hconstant _ _ (hwithin o) (hwithin u)] at hbefore
      omega
  · intro u w hstep
    rcases hs.bound with hexact | hconstant
    · have hclimb := hclimbs u w hstep
      unfold Lattice.Ranked at *
      rwa [hexact _ (hwithin u), hexact _ (hwithin w)]
    · have hrise := hrises u w hstep
      unfold Lattice.Ranked
      rw [hconstant _ _ (hwithin u) (hwithin w)]
      omega

end
end Checker

/-! ## New spaces -/

theorem SolutionSpace.open_ofLattice (l : Lattice) (c : Checker) {id : Nat} (hid : id < l.size) :
    ((ofLattice l).forSearch c).Open c.metric.isMonotone id := by
  have hmarked : ∀ id mark, ((ofLattice l).forSearch c).marked id mark = false :=
    marked_ofLattice l
  have hfree : ∀ id, ¬((ofLattice l).forSearch c).Foreclosed c.metric.isMonotone id := by
    rintro id ⟨-, -, hanonymous⟩
    rw [has_eq, hmarked, Bool.false_or, Bool.and_eq_true, predicts_anonymous] at hanonymous
    obtain ⟨-, -, root, hroot, -⟩ := hanonymous
    cases hroot
  have hbottom : l.levelsAt l.bottom = l.minLevels :=
    (Lattice.levelsOf_ok l.levelsOf_bottom).2.symm
  have hle : List.Forall₂ (· ≤ ·) (l.levelsAt l.bottom) (l.levelsAt id) := by
    rw [hbottom]
    exact (Lattice.decode_within l.axes id).low_le
  exact Lattice.climb_steps l.size_pos hid hle (.bottom (hfree _)) fun a b hstep ha =>
    .step ha hstep (hmarked b _) (hfree b)

namespace BestFirst

section
variable {c : Checker} {s : SolutionSpace} {optimum : Option Nat}

theorem Best.optimal_of_open (hopen : ∀ id < s.lattice.size, s.Open c.metric.isMonotone id)
    (h : Best c s (fun u v => c.lossAt (s.lattice.levelsAt u) ≤ c.lossAt (s.lattice.levelsAt v))
      optimum) : c.Optimal s.lattice optimum := by
  have hpreferred : ∀ levels, Lattice.Within s.lattice.axes levels →
      c.anonymousAt levels = true → ∃ o ∈ optimum,
        c.lossAt (s.lattice.levelsAt o) ≤ c.lossAt levels := by
    intro levels hlevels hanonymous
    have hat : s.lattice.levelsAt (Lattice.encode s.lattice.axes levels) = levels :=
      hlevels.decode_encode
    have := h.preferred _ (hopen _ hlevels.encode_lt) (hat.symm ▸ hanonymous)
    simpa only [hat] using this
  refine ⟨⟨fun hnone levels hlevels => ?_, fun hnone => ?_⟩, fun o ho => ?_⟩
  · refine Bool.eq_false_iff.mpr fun hanonymous => ?_
    obtain ⟨o, ho, -⟩ := hpreferred levels hlevels hanonymous
    rw [hnone] at ho
    cases ho
  · refine Option.eq_none_iff_forall_not_mem.mpr fun o ho => ?_
    have hanonymous := (h.found o ho).2
    rw [hnone (s.lattice.levelsAt o) (Lattice.decode_within _ o)] at hanonymous
    cases hanonymous
  · obtain ⟨hown, hanonymous⟩ := h.found o ho
    refine ⟨_, Lattice.levelsOf_levelsAt hown.lt_size, hanonymous, fun other hother hanon => ?_⟩
    obtain ⟨best, hbest, hle⟩ := hpreferred other hother hanon
    cases ho.symm.trans hbest
    exact hle

/-- The best is optimal if something minimal is open, or nothing is anonymous, and only then. -/
theorem Best.optimal_iff
    (h : Best c s (fun u v => c.lossAt (s.lattice.levelsAt u) ≤ c.lossAt (s.lattice.levelsAt v))
      optimum) : c.Optimal s.lattice optimum ↔
    (∀ levels, Lattice.Within s.lattice.axes levels → c.anonymousAt levels = false) ∨
      ∃ id, s.Open c.metric.isMonotone id ∧ c.Minimal s.lattice (s.lattice.levelsAt id) := by
  constructor
  · intro hoptimal
    cases hopt : optimum with
    | none => exact Or.inl (hoptimal.none.mp hopt)
    | some o =>
      obtain ⟨levels, hlevels, hminimal⟩ := hoptimal.some o hopt
      obtain ⟨-, rfl⟩ := Lattice.levelsOf_ok hlevels
      exact Or.inr ⟨o, (h.found o hopt).1, hminimal⟩
  · rintro (hnone | ⟨id, hopen, hminimal⟩)
    · have hopt : optimum = none := Option.eq_none_iff_forall_not_mem.mpr fun o ho => by
        have hanonymous := (h.found o ho).2
        rw [hnone (s.lattice.levelsAt o) (Lattice.decode_within _ o)] at hanonymous
        cases hanonymous
      exact ⟨⟨fun _ => hnone, fun _ => hopt⟩, fun o ho => by rw [hopt] at ho; cases ho⟩
    · obtain ⟨best, hbest, hle⟩ := h.preferred id hopen hminimal.anonymous
      obtain ⟨hown, hanonymous⟩ := h.found best hbest
      refine ⟨⟨fun hnone => ?_, fun hnone => ?_⟩, fun o ho => ?_⟩
      · rw [hnone] at hbest
        cases hbest
      · rw [hnone (s.lattice.levelsAt best) (Lattice.decode_within _ best)] at hanonymous
        cases hanonymous
      · cases ho.symm.trans hbest
        exact ⟨_, Lattice.levelsOf_levelsAt hown.lt_size, hanonymous,
          fun other hother hanon => Binary64.le_trans hle (hminimal.least other hother hanon)⟩

end
end BestFirst

section
variable {d : Dataset} (hd : d.Accepted) (hrecords : d.records < 2 ^ 32)
  {criteria : List Criterion} {metric : Metric} {settings : CheckerSettings} {c : Checker}
  (hc : Checker.create d criteria metric settings = .ok c) {l : Lattice}
  (hl : Lattice.ofBounds d.minLevels d.maxLevels = .ok l)
include hd hrecords hc hl

theorem Checker.serves_create : c.Serves l := by
  obtain ⟨hfaithful, rfl⟩ := Checker.faithful_create hd.wellFormed hrecords hc
  exact ⟨hfaithful, Checker.ready_create hc, hd.wellFormed.covers hl⟩

end

end Recoding
