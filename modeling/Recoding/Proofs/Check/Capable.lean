import Recoding.Proofs.Check.Total

/-!
# Checks do not fail

A checker is capable of a lattice if whatever it keeps stands for existing records. Then every
check of the lattice succeeds and leaves a capable checker, however many records there are and
whatever else the snapshots have lost. Where the search asks for scores, the metric has to give
one for every grouping.
-/

namespace Recoding

namespace Checker

/-- A checker whose checks of a lattice do not fail. -/
structure Capable (c : Checker) (l : Lattice) : Prop where
  wellFormed : c.dataset.WellFormed
  ready : c.Ready
  covers : c.dataset.Covers l
  held : ∀ entry ∈ c.history.held, entry.2.Grounded c.dataset.records
  last : ∀ kept ∈ c.last, kept.2.Grounded c.dataset.records

/-- Every grouping of existing records has an exact score, and none is too large for a double. -/
def Scores (c : Checker) : Prop := ∀ levels g, c.dataset.Admits levels →
  g.Grounded c.dataset.records → ∃ score, c.metric.score levels g = .ok score ∧ |score| ≤ 2 ^ 1023

theorem Scores.agrees {a b : Checker} (h : a.Scores) (k : b.Agrees a) : b.Scores := by
  unfold Scores
  rw [k.dataset, k.metric]
  exact h

section
variable {c : Checker} {l : Lattice} (h : c.Capable l)
include h

theorem Capable.of_eq {after : Checker} (hagrees : after.Agrees c)
    (hheld : after.history.held = c.history.held) (hlast : after.last = c.last) :
    after.Capable l where
  wellFormed := hagrees.dataset ▸ h.wellFormed
  ready := h.ready.agrees hagrees
  covers := hagrees.dataset ▸ h.covers
  held := by
    rw [hheld, hagrees.dataset]
    exact h.held
  last := by
    rw [hlast, hagrees.dataset]
    exact h.last

theorem Capable.setRetention (retention : Retention) : (c.setRetention retention).Capable l :=
  h.of_eq ⟨rfl, rfl, rfl, rfl⟩ rfl rfl

theorem Capable.reset : ({ c with history := c.history.reset } : Checker).Capable l where
  wellFormed := h.wellFormed
  ready := h.ready.agrees ⟨rfl, rfl, rfl, rfl⟩
  covers := h.covers
  held := fun _ hentry => absurd hentry List.not_mem_nil
  last := h.last

theorem Capable.count (f : Counters → Counters) : (c.count f).Capable l :=
  h.of_eq ⟨rfl, rfl, rfl, rfl⟩ rfl rfl

theorem Capable.prepared (levels : List Nat) (fromRecords : Bool) :
    (c.prepared levels fromRecords).Capable l := by
  cases fromRecords with
  | true => exact h.of_eq ⟨rfl, rfl, rfl, rfl⟩ rfl rfl
  | false =>
    refine h.of_eq (c.precedes_prepared levels false).agrees ?_ ?_ <;>
      · unfold Checker.prepared plan History.findClosest
        cases (c.count Counters.check).history.closest? levels <;> rfl

/-- Whatever a check is going to visit stands for existing records. -/
theorem Capable.source (levels : List Nat) (fromRecords : Bool) :
    (c.plan levels fromRecords).1.source.Grounded c.dataset.records := by
  rcases c.plan_source levels fromRecords with
    hsource | ⟨kept, hkept, -, hsource⟩ | ⟨found, hfound, hsource⟩
  · rw [hsource]
    trivial
  · rw [hsource]
    exact h.last kept hkept
  · rw [hsource]
    exact h.held found (History.closest?_spec hfound).1

theorem Capable.keep {g : Grouping} (hg : g.Grounded c.dataset.records) (id : Nat)
    (levels : List Nat) (e : Evaluation) (plan : ScanPlan) :
    (c.keep id levels g e plan).Capable l := by
  have hlast : ∀ kept ∈ (c.keep id levels g e plan).last, kept.2.Grounded c.dataset.records := by
    intro kept hkept
    cases hkept
    exact hg
  have hready := h.ready.agrees (⟨rfl, rfl, rfl, rfl⟩ : (c.keep id levels g e plan).Agrees c)
  refine ⟨h.wellFormed, hready, h.covers, fun entry hentry => ?_, hlast⟩
  rcases History.store_eq c.history id levels g e.loss plan.sourceSize with
    hstore | ⟨dropped, hheld, -⟩
  · have hhistory : (c.keep id levels g e plan).history = c.history := hstore
    rw [hhistory] at hentry
    exact h.held entry hentry
  · have hhistory : (c.keep id levels g e plan).history.held = c.history.held.drop dropped ++
        [(id, (Snapshot.ofGrouping levels g c.history.dictionary).1)] := hheld
    rw [hhistory, List.mem_append, List.mem_singleton] at hentry
    rcases hentry with hold | rfl
    · exact h.held entry (List.mem_of_mem_drop hold)
    · exact Snapshot.grounded_ofGrouping hg levels _

theorem Capable.run_scored {levels : List Nat} (hl : c.dataset.Admits levels) {plan : ScanPlan}
    (hplan : plan.source.Grounded c.dataset.records) (objective : Objective) :
    ∃ (e : Evaluation) (judged : Grouping), judged.Grounded c.dataset.records ∧
      c.run levels plan objective =
        (c.scoreOf levels judged objective).map fun score => ({ e with score }, judged) := by
  obtain ⟨g, hgroup, hgrounded, hwide⟩ :=
    h.wellFormed.group_grounded hl hplan c.tracks c.workers c.minRecords
  obtain ⟨e, judged, hjudged, hevaluate⟩ := evaluate_scored hl h.ready hwide plan.kind objective
  refine ⟨e, judged, hgrounded.unjudged hjudged, ?_⟩
  unfold Checker.run group?
  rw [hgroup]
  exact hevaluate

end

section
variable {c : Checker} {space : SolutionSpace} (h : c.Capable space.lattice)
include h

/-- A check of a known transformation succeeds if the grouping has a score, where the search asks
for one. -/
theorem Capable.check_scored {id : Nat} {levels : List Nat}
    (hlevels : space.lattice.levelsOf id = .ok levels) (fromRecords : Bool)
    (objective : Objective) :
    ∃ (e : Evaluation) (judged : Grouping), judged.Grounded c.dataset.records ∧
      match c.scoreOf levels judged objective with
      | .error failure => c.check space id fromRecords objective =
          (.error failure, c.prepared levels fromRecords, space)
      | .ok score => ∃ after recorded, c.check space id fromRecords objective =
            (.ok { e with score }, after, recorded) ∧
          after.Capable space.lattice ∧ space.record id { e with score } = .ok recorded := by
  have hprepared := h.prepared levels fromRecords
  have hagrees := (c.precedes_prepared levels fromRecords).agrees
  have hsource := h.source levels fromRecords
  rw [← hagrees.dataset] at hsource
  obtain ⟨e, judged, hgrounded, hrun⟩ :=
    hprepared.run_scored (hprepared.covers.admits hlevels) hsource objective
  have hscore : (c.prepared levels fromRecords).scoreOf levels judged objective =
      c.scoreOf levels judged objective := by
    unfold scoreOf
    rw [hagrees.metric]
  refine ⟨e, judged, hagrees.dataset ▸ hgrounded, ?_⟩
  rw [check_eq hlevels, hrun, hscore]
  cases c.scoreOf levels judged objective with
  | error failure => rfl
  | ok score =>
    obtain ⟨recorded, hrecorded⟩ := exists_record hlevels { e with score }
    refine ⟨_, recorded, ?_, hprepared.keep hgrounded id levels { e with score }
      (c.plan levels fromRecords).1, hrecorded⟩
    rw [map_ok]
    dsimp only
    rw [hrecorded]

theorem Capable.check {id : Nat} (hid : id < space.lattice.size) (fromRecords : Bool)
    (objective : Objective) (hscores : objective = .score → c.Scores) :
    ∃ e after recorded, c.check space id fromRecords objective = (.ok e, after, recorded) ∧
      after.Capable space.lattice ∧ space.record id e = .ok recorded ∧
      ∀ score ∈ e.score, |score| ≤ 2 ^ 1023 := by
  have hlevels := Lattice.levelsOf_levelsAt hid
  obtain ⟨e, judged, hgrounded, hcheck⟩ := h.check_scored hlevels fromRecords objective
  have hscore : ∃ score, c.scoreOf (space.lattice.levelsAt id) judged objective = .ok score ∧
      ∀ own ∈ score, |own| ≤ 2 ^ 1023 := by
    cases objective with
    | loss => exact ⟨none, rfl, fun _ hown => nomatch hown⟩
    | score =>
      obtain ⟨score, hscore, hle⟩ := hscores rfl _ judged (h.covers.admits hlevels) hgrounded
      exact ⟨some score, by rw [scoreOf, hscore, map_ok], fun own hown => by cases hown; exact hle⟩
  obtain ⟨score, hscore, hle⟩ := hscore
  rw [hscore] at hcheck
  obtain ⟨after, recorded, hcheck, hafter, hrecorded⟩ := hcheck
  exact ⟨_, after, recorded, hcheck, hafter, hrecorded, hle⟩

theorem Capable.after_check (id : Nat) (fromRecords : Bool) (objective : Objective) :
    (c.check space id fromRecords objective).2.1.Capable space.lattice := by
  cases hlevels : space.lattice.levelsOf id with
  | error failure => rwa [check_unknown hlevels]
  | ok levels =>
    obtain ⟨e, judged, -, hcheck⟩ := h.check_scored hlevels fromRecords objective
    cases hscore : c.scoreOf levels judged objective with
    | error failure =>
      rw [hscore] at hcheck
      rw [hcheck]
      exact h.prepared levels fromRecords
    | ok score =>
      rw [hscore] at hcheck
      obtain ⟨after, recorded, hcheck, hafter, -⟩ := hcheck
      rw [hcheck]
      exact hafter

/-- A check of a known transformation fails only if the metric has no score for a grouping and
the search asks for one. -/
theorem Capable.check_error {id : Nat} {levels : List Nat}
    (hlevels : space.lattice.levelsOf id = .ok levels) {fromRecords : Bool}
    {objective : Objective} {failure : Failure}
    (hfailed : (c.check space id fromRecords objective).1 = .error failure) :
    objective = .score ∧ ∃ g : Grouping, g.Grounded c.dataset.records ∧
      c.metric.score levels g = .error failure := by
  obtain ⟨e, judged, hgrounded, hcheck⟩ := h.check_scored hlevels fromRecords objective
  cases hscore : c.scoreOf levels judged objective with
  | ok score =>
    rw [hscore] at hcheck
    obtain ⟨after, recorded, hcheck, -⟩ := hcheck
    rw [hcheck] at hfailed
    cases hfailed
  | error own =>
    rw [hscore] at hcheck
    rw [hcheck] at hfailed
    cases hfailed
    cases objective with
    | loss => cases hscore
    | score =>
      refine ⟨rfl, judged, hgrounded, ?_⟩
      rw [scoreOf] at hscore
      cases hown : c.metric.score levels judged with
      | ok score => simp [hown] at hscore
      | error other => simpa [hown] using hscore

end

theorem capable_create {d : Dataset} (hd : d.WellFormed) {criteria : List Criterion}
    {metric : Metric} {settings : CheckerSettings} {c : Checker}
    (hc : create d criteria metric settings = .ok c) {l : Lattice} (hl : d.Covers l) :
    c.Capable l := by
  have hready := ready_create hc
  obtain ⟨prepared, -, hc⟩ := bind_eq_ok.mp hc
  obtain ⟨measured, -, hc⟩ := bind_eq_ok.mp hc
  cases hc
  exact ⟨hd, hready, hl, fun _ hentry => absurd hentry List.not_mem_nil,
    fun _ hkept => nomatch hkept⟩

end Checker
end Recoding
