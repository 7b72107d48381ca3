import Recoding.Proofs.Grouping.Mirrored
import Recoding.Proofs.Loss.Regular

/-!
# Checks of rearranged datasets

Criteria look at one class at a time, and the plain metrics at the sizes of all classes in any
order. So a check of a rearranged dataset has the same evaluation, and it leaves a checker that
will go on as one of the original dataset does.
-/

namespace Recoding

open Binary64

/-! ## Evaluations -/

/-- The metrics for which the order of the classes does not matter: heights, which see no class,
and discernability, where its sum needs no rounding. -/
def Metric.Unordered (d : Dataset) : Metric → Prop
  | .height _ => True
  | .discernability _ => d.subsetSize * d.subsetSize < 2 ^ 53
  | _ => False

theorem sum_squares_perm {ns ms : List Nat} (h : ns.Perm ms)
    (hlt : (ns.map fun n => n * n).sum < 2 ^ 53) :
    sum (ns.map fun n => ofCount n * ofCount n) = sum (ms.map fun n => ofCount n * ofCount n) := by
  cases ns with
  | nil => rw [h.nil_eq]
  | cons n ns =>
    cases ms with
    | nil => exact absurd h.eq_nil (List.cons_ne_nil n ns)
    | cons m ms =>
      have hsum := (h.map fun n => n * n).sum_eq
      have hleft := counts_sum_squares hlt
      rw [hsum] at hleft hlt
      exact hleft.unique (counts_sum_squares hlt)

section
variable {g other : Grouping} (h : g.Permuted other)
include h

theorem Metric.loss_permuted {m : Metric} {d : Dataset} (hm : m.Unordered d)
    (hsquares : (g.classes.map fun e => e.count * e.count).sum ≤ d.subsetSize * d.subsetSize)
    (levels : List Nat) : m.loss levels g = m.loss levels other := by
  cases m with
  | height aggregate => rfl
  | normalizedEntropy aggregate order tables => exact hm.elim
  | entropyDomainShare tables => exact hm.elim
  | discernability records =>
    have hcounts := h.map (·.count) fun _ => rfl
    have hsum := sum_squares_perm hcounts (by
      rw [List.map_map]
      exact hsquares.trans_lt hm)
    rw [List.map_map, List.map_map] at hsum
    have hsum : sum (g.classes.map fun e => ofCount e.count * ofCount e.count) =
        sum (other.classes.map fun e => ofCount e.count * ofCount e.count) := hsum
    simp only [loss, hsum]

theorem Metric.score_permuted {m : Metric} {d : Dataset} (hm : m.Unordered d)
    (levels : List Nat) : m.score levels g = m.score levels other := by
  cases m with
  | height aggregate => rfl
  | normalizedEntropy aggregate order tables => exact hm.elim
  | entropyDomainShare tables => exact hm.elim
  | discernability records =>
    have hsquares := (h.map (fun e => e.count * e.count) fun _ => rfl).sum_eq
    simp only [score, hsquares]

theorem Grouping.Permuted.analyze {levels : List Nat} {criteria : List Criterion}
    {r s : Bool × Grouping} (hr : g.analyze levels criteria = .ok r)
    (hs : other.analyze levels criteria = .ok s) : r.1 = s.1 ∧ r.2.Permuted s.2 := by
  constructor
  · have hall : ∀ {g other : Grouping}, g.Permuted other →
        (∀ c ∈ criteria, ∀ e ∈ g.classes, e.count = 0 ∨ c.admits levels e = .ok true) →
          ∀ c ∈ criteria, ∀ e ∈ other.classes, e.count = 0 ∨ c.admits levels e = .ok true := by
      intro g other h hg c hc e he
      obtain ⟨x, hx, hsame⟩ := h.symm.exists_class he
      have hcount : x.count = e.count :=
        (congrArg EquivalenceClass.count hsame : x.unrepresented.count = e.unrepresented.count)
      have hadmits : ∀ e : EquivalenceClass,
          c.admits levels e.unrepresented = c.admits levels e := fun e => by cases c <;> rfl
      have hx := hg c hc x hx
      rwa [hcount, ← hadmits x, hsame, hadmits e] at hx
    rw [Bool.eq_iff_iff, Grouping.analyze_true hr, Grouping.analyze_true hs]
    exact ⟨hall h, hall h.symm⟩
  · rw [← Grouping.Permuted.unjudged_iff, Grouping.analyze_unjudged hr,
      Grouping.analyze_unjudged hs, Grouping.Permuted.unjudged_iff]
    exact h

end

namespace Checker

/-- A checker of a rearranged dataset that judges and measures as one of the original dataset. -/
structure Rearranged (place : Nat → Nat) (c other : Checker) : Prop where
  dataset : other.dataset = c.dataset.rearrange place
  criteria : other.criteria = c.criteria
  metric : other.metric = c.metric
  tracks : other.tracks = c.tracks

section
variable {place : Nat → Nat} {c other : Checker} (h : c.Rearranged place other)
  (hd : c.dataset.WellFormed) (hp : Rearranges place c.dataset.records)
  (hd' : other.dataset.WellFormed) (hc : c.Ready) (hc' : other.Ready)
  {levels : List Nat} (hl : c.dataset.Admits levels)
include h hd hp

theorem Rearranged.grouping (levels : List Nat) :
    (c.grouping levels).Permuted (other.grouping levels) := by
  unfold Checker.grouping
  rw [h.dataset, h.tracks]
  exact (Dataset.permuted_grouping hd hp levels c.tracks).symm

include hd' hc hc' hl

theorem Rearranged.fullScan (hm : c.metric.Unordered c.dataset) (objective : Objective) :
    SameOutcome (fun r s => r.1 = s.1 ∧ r.2.Permuted s.2) (c.fullScan levels objective)
      (other.fullScan levels objective) := by
  have hl' : other.dataset.Admits levels := by
    rw [h.dataset]
    exact hl
  have hanalyzed : ∀ x : Checker, x.dataset.WellFormed → x.Ready → x.dataset.Admits levels →
      ∃ r, (x.grouping levels).analyze levels x.criteria = .ok r := by
    intro x hx hready hadmits
    obtain ⟨e, g, hscan⟩ := fullScan_ok hadmits hx hready
    exact ⟨_, (evaluate_ok hscan).1⟩
  obtain ⟨r, hr⟩ := hanalyzed c hd hc hl
  obtain ⟨s, hs⟩ := hanalyzed other hd' hc' hl'
  rw [Checker.fullScan, Checker.fullScan, evaluate_eq, evaluate_eq, hr, hs, ok_bind, ok_bind]
  rw [h.criteria] at hs
  obtain ⟨hverdict, hjudged⟩ := (h.grouping hd hp levels).analyze hr hs
  have hsquares : (r.2.classes.map fun e => e.count * e.count).sum ≤
      c.dataset.subsetSize * c.dataset.subsetSize := by
    have hcounts := counts_eq ((Grouping.analyze_unjudged hr).trans
      (Grouping.unjudged_ofContributions _ _))
    have hbound := (c.dataset.sum_squares_bounds c.tracks levels).2
    rw [hd.card_members] at hbound
    have hsum := congrArg (fun ns => (ns.map fun n => n * n).sum) hcounts
    simp only [List.map_map] at hsum
    exact hsum.trans_le hbound
  have hloss : other.metric.loss levels s.2 = c.metric.loss levels r.2 := by
    rw [h.metric, Metric.loss_permuted hjudged hm hsquares]
  have hbound : ∀ measured, other.boundOf levels measured = c.boundOf levels measured := by
    intro measured
    unfold boundOf
    rw [h.metric]
  have hscore : other.scoreOf levels s.2 objective = c.scoreOf levels r.2 objective := by
    cases objective with
    | loss => rfl
    | score =>
      unfold Checker.scoreOf
      rw [h.metric, Metric.score_permuted hjudged hm]
  rw [hloss]
  refine .bind_self fun measured _ => ?_
  rw [hbound]
  refine .bind_self fun bound _ => ?_
  rw [hscore]
  refine .map_self fun score => ?_
  exact ⟨by rw [hverdict, hjudged.size_eq], hjudged⟩

end

/-! ## Checkers -/

/-- Later states of two checkers that will go on alike. -/
structure Mirrored (a b x y : Checker) : Prop where
  left : a.Precedes x
  right : b.Precedes y
  history : x.history.Mirrors y.history
  last : Option.Rel (fun r s => r.1 = s.1 ∧ r.2.size = s.2.size) x.last y.last
  counters : x.counters = y.counters

namespace Mirrored

variable {a b x y : Checker} (h : Mirrored a b x y)
include h

theorem count (f : Counters → Counters) : Mirrored a b (x.count f) (y.count f) :=
  ⟨h.left.trans (precedes_count x f), h.right.trans (precedes_count y f), h.history, h.last,
    congrArg f h.counters⟩

theorem countScan (kind : ScanKind) : Mirrored a b (x.countScan kind) (y.countScan kind) := by
  refine ⟨h.left.trans (precedes_countScan x kind), h.right.trans (precedes_countScan y kind),
    h.history, h.last, ?_⟩
  unfold Checker.countScan
  rw [h.counters]

theorem previous (levels : List Nat) :
    Option.Rel (fun g other : Grouping => g.size = other.size) (x.previous? levels)
      (y.previous? levels) := by
  have hlast := h.last
  unfold previous?
  rcases hx : x.last with _ | ⟨own, g⟩ <;> rcases hy : y.last with _ | ⟨others, other⟩ <;>
    rw [hx, hy] at hlast <;> cases hlast
  · exact .none
  · rename_i hrel
    obtain ⟨hown, hsize⟩ := hrel
    dsimp only at hown hsize ⊢
    rw [hown]
    split_ifs
    · exact .some hsize
    · exact .none

omit h in
theorem choose {found other : Option Snapshot} {previous last : Option Grouping}
    (hf : Option.Rel (fun s t : Snapshot => s.size = t.size) found other)
    (hp : Option.Rel (fun g o : Grouping => g.size = o.size) previous last) (d e : Dictionary) :
    (ScanPlan.choose d found previous).kind = (ScanPlan.choose e other last).kind ∧
      (ScanPlan.choose d found previous).sourceSize =
        (ScanPlan.choose e other last).sourceSize := by
  cases hf with
  | none =>
    cases hp with
    | none => exact ⟨rfl, rfl⟩
    | some hg => exact ⟨rfl, congrArg some hg⟩
  | some hs =>
    cases hp with
    | none => exact ⟨rfl, congrArg some hs⟩
    | some hg =>
      simp only [ScanPlan.choose, hs, hg]
      split_ifs
      · exact ⟨rfl, congrArg some hg⟩
      · exact ⟨rfl, congrArg some hs⟩

/-- Both checkers plan the same kind of scan, of a source of the same size. -/
theorem plan (levels : List Nat) :
    (x.plan levels false).1.kind = (y.plan levels false).1.kind ∧
      (x.plan levels false).1.sourceSize = (y.plan levels false).1.sourceSize ∧
      Mirrored a b (x.plan levels false).2 (y.plan levels false).2 := by
  obtain ⟨hfound, hhistory⟩ := h.history.findClosest levels
  have hboth : ∀ {f g : Option (Nat × Snapshot)}, Option.Rel Snapshot.Mirrors f g →
      Option.Rel (fun s t : Snapshot => s.size = t.size) (f.map Prod.snd) (g.map Prod.snd) ∧
        f.isSome = g.isSome := by
    intro f g hfg
    cases hfg with
    | none => exact ⟨.none, rfl⟩
    | some hst => exact ⟨.some hst.size, rfl⟩
  obtain ⟨hsnapshots, hsome⟩ := hboth hfound
  obtain ⟨hkind, hsize⟩ := choose hsnapshots (h.previous levels)
    (x.history.findClosest levels).2.dictionary (y.history.findClosest levels).2.dictionary
  refine ⟨hkind, hsize, h.left.trans (precedes_plan x levels false),
    h.right.trans (precedes_plan y levels false), hhistory, h.last, ?_⟩
  have hcounters : x.counters.lookup (x.history.findClosest levels).1.isSome =
      y.counters.lookup (y.history.findClosest levels).1.isSome := by
    rw [h.counters, hsome]
  exact hcounters

/-- Both checkers go on alike when they judge a scan. -/
theorem prepared (levels : List Nat) :
    Mirrored a b (x.prepared levels false) (y.prepared levels false) := by
  obtain ⟨-, -, hplanned⟩ := (h.count Counters.check).plan levels
  unfold Checker.prepared
  rw [(h.plan levels).1]
  exact hplanned.countScan _

/-- Both checkers go on alike with permuted groupings. -/
theorem keep (hx : x.Faithful) (hy : y.Faithful) {levels : List Nat}
    (hl : x.dataset.Admits levels) (hl' : y.dataset.Admits levels) (htracks : x.tracks = y.tracks)
    {g other : Grouping} (hg : g.unjudged = x.grouping levels)
    (ho : other.unjudged = y.grouping levels) (hperm : g.Permuted other) (id : Nat)
    (e : Evaluation) {plan plan' : ScanPlan} (hsize : plan.sourceSize = plan'.sourceSize) :
    Mirrored a b (x.keep id levels g e plan) (y.keep id levels other e plan') := by
  have hnarrow : ∀ {c : Checker} {g : Grouping}, c.Faithful → g.unjudged = c.grouping levels →
      g.tracks = c.tracks ∧ ∀ e ∈ g.classes, e.Narrow g.tracks := by
    intro c g hc hg
    have hown : g.tracks = c.tracks :=
      (congrArg Grouping.tracks hg).trans (Grouping.tracks_ofContributions _ _)
    refine ⟨hown, fun e he => ?_⟩
    have hmem : e.unjudged ∈ (c.grouping levels).classes := hg ▸ List.mem_map_of_mem he
    have hun := Dataset.narrow_grouping hc.narrow c.tracks levels _ hmem
    rw [hown]
    exact ⟨hun.representative, hun.count, hun.total, hun.distribution, hun.tracked⟩
  obtain ⟨hgt, hgn⟩ := hnarrow hx hg
  obtain ⟨hot, hon⟩ := hnarrow hy ho
  obtain ⟨hstored, hmirrors⟩ := h.history.store hx.sound hy.sound hperm
    (hgt.trans (htracks.trans hot.symm)) hgn hon id levels e.loss plan.sourceSize
  rw [hsize] at hstored hmirrors
  refine ⟨h.left.trans (precedes_keep hl hg id e plan), h.right.trans (precedes_keep hl' ho id e plan'),
    ?_, .some ⟨rfl, hperm.size_eq⟩, ?_⟩
  · unfold Checker.keep
    rw [hsize]
    exact hmirrors
  · unfold Checker.keep
    dsimp only
    rw [hsize, hstored, h.counters, hmirrors.counters]

end Mirrored
end Checker
end Recoding
