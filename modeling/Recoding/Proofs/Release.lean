import Recoding.Anonymization
import Recoding.Proofs.Check.Released
import Recoding.Proofs.Sample
import Recoding.Proofs.Search.Sanity

/-!
# Released data satisfy the criteria

A run releases the data at the optimum of its search. Whatever the search has regrouped,
predicted or left out, the optimum is a transformation that is anonymous, so the classes that
the released rows form are accepted by every criterion.
-/

namespace Recoding

namespace Dataset

theorem record?_tableOf {d : Dataset} {records : List (List Nat)} {row : Nat} {record : List Nat}
    (hr : row < d.records) (hrecord : records[row]? = some record)
    (hwidth : record.length = d.table.columns) :
    (d.tableOf records).record? row = some record := by
  obtain ⟨hlt, rfl⟩ := List.getElem?_eq_some_iff.mp hrecord
  rw [tableOf, CodeTable.record?_tabulate hr]
  congr 1
  refine List.ext_getElem (by simp [hwidth]) fun i hi hj => ?_
  simp [hlt, hj, Array.getD]

end Dataset

/-- The class that records form with their codes satisfies all chosen criteria. -/
structure Dataset.SatisfiedBy (d : Dataset) (choices : List CriterionChoice)
    (levels codes rows : List Nat) : Prop where
  admitted : ∀ choice ∈ choices, ∃ criterion,
    (Criterion.ofChoice choice).prepare d = .ok criterion ∧
      criterion.admits levels (d.classOfRows true codes rows) = .ok true
  kAnonymous : ∀ k, .kAnonymity k ∈ choices → k ≤ rows.countP d.member
  diverse : ∀ l, .distinctDiversity l ∈ choices → l ≤ (d.subsetValues rows).toFinset.card

/-- What k-anonymity and diversity ask of the records follows from their admitting the class. -/
theorem Dataset.SatisfiedBy.of_admitted {d : Dataset} {choices : List CriterionChoice}
    {levels codes rows : List Nat} (h : ∀ choice ∈ choices, ∃ criterion,
      (Criterion.ofChoice choice).prepare d = .ok criterion ∧
        criterion.admits levels (d.classOfRows true codes rows) = .ok true) :
    d.SatisfiedBy choices levels codes rows := by
  refine ⟨h, fun k hk => ?_, fun l hl => ?_⟩
  · obtain ⟨criterion, hprepare, hadmits⟩ := h _ hk
    simp only [Criterion.ofChoice, Criterion.prepare] at hprepare
    split_ifs at hprepare
    cases hprepare
    simpa [Criterion.admits, Dataset.classOfRows] using hadmits
  · obtain ⟨criterion, hprepare, hadmits⟩ := h _ hl
    simp only [Criterion.ofChoice, Criterion.prepare] at hprepare
    split_ifs at hprepare
    cases hprepare
    have hdistribution : (d.classOfRows true codes rows).distribution =
        Distribution.joint (rows.map d.recordDistribution) := rfl
    simp only [Criterion.admits, hdistribution] at hadmits
    cases hx : Distribution.joint (rows.map d.recordDistribution) with
    | none => simp [hx] at hadmits
    | some x =>
      rw [← Dataset.distinct_joint hx]
      simpa [hx] using hadmits

namespace Release

def group (r : Release) (row : Nat) : List Nat :=
  (List.range r.generalized.rows).filter fun other =>
    r.generalized.record? other = r.generalized.record? row

/-- What is promised about data that are released at some levels: the rows are the generalized
records, and the rows that equal a row form a class that satisfies the criteria, unless none of
them is in the subset. -/
structure Satisfies (r : Release) (d : Dataset) (choices : List CriterionChoice)
    (levels : List Nat) : Prop where
  rows : r.generalized.rows = d.records
  records : ∀ row < d.records, ∃ codes, d.generalize? row levels = some codes ∧
    r.generalized.record? row = some codes
  groups : ∀ row < d.records, ∀ codes, r.generalized.record? row = some codes →
    (∃ other ∈ r.group row, d.member other = true) →
      d.SatisfiedBy choices levels codes (r.group row)

end Release

namespace Checker

section
variable {c : Checker} (hd : c.dataset.WellFormed) {levels : List Nat}
  (hl : c.dataset.Admits levels)
include hd hl

theorem release_ok {r : Release} (h : c.release levels = .ok r) :
    r.generalized = c.dataset.tableOf
        ((List.range c.dataset.records).map (c.dataset.key levels)) ∧
      r.evaluation.anonymous = c.anonymousAt levels ∧
      r.evaluation.loss.value = c.lossAt levels := by
  obtain ⟨keys, hkeys, h⟩ := bind_eq_ok.mp h
  obtain ⟨⟨e, g⟩, hrun, h⟩ := bind_eq_ok.mp h
  have hparts : ∃ microaggregated, r = ⟨c.dataset.tableOf keys, microaggregated, e⟩ := by
    dsimp only at h
    split at h
    · exact ⟨_, (Except.ok.inj h).symm⟩
    · obtain ⟨microaggregated, -, h⟩ := bind_eq_ok.mp h
      exact ⟨_, (Except.ok.inj h).symm⟩
  obtain ⟨microaggregated, rfl⟩ := hparts
  rw [hd.generalizedRecords_eq hl] at hkeys
  cases hkeys
  refine ⟨rfl, ?_⟩
  have hscan : c.fullScan levels .loss = .ok (e, g) := by
    rw [run, group?, ScanPlan.records, hd.group_records hl] at hrun
    exact hrun
  exact fullScan_answers hscan

theorem record?_release {r : Release} (h : c.release levels = .ok r) {row : Nat}
    (hrow : row < c.dataset.records) :
    r.generalized.record? row = some (c.dataset.key levels row) := by
  rw [(release_ok hd hl h).1]
  refine Dataset.record?_tableOf hrow (by simp [hrow]) ?_
  rw [hd.key_length hrow hl, hd.width]

theorem group_release {r : Release} (h : c.release levels = .ok r) {row : Nat}
    (hrow : row < c.dataset.records) :
    r.group row = c.dataset.rowsWith levels (c.dataset.key levels row) := by
  have hrows : r.generalized.rows = c.dataset.records := by
    rw [(release_ok hd hl h).1]
    rfl
  rw [Release.group, Dataset.rowsWith, hrows]
  refine List.filter_congr fun other hother => ?_
  rw [record?_release hd hl h hrow, record?_release hd hl h (List.mem_range.mp hother)]
  simp

end

/-- Criteria see distributions of sensitive values only where they are tracked. -/
theorem Ready.admits_tracked {c : Checker} (hc : c.Ready) {criterion : Criterion}
    (hmem : criterion ∈ c.criteria) (levels key rows : List Nat) :
    criterion.admits levels (c.dataset.classOfRows c.tracks key rows) =
      criterion.admits levels (c.dataset.classOfRows true key rows) := by
  cases criterion with
  | inclusion size => rfl
  | kAnonymity k => rfl
  | distinctDiversity l =>
    have htracks : c.tracks = true := by
      rw [hc.tracks]
      exact List.any_eq_true.mpr ⟨_, hmem, rfl⟩
    rw [htracks]
  | profitability attacker payoffs shares floor => rfl

end Checker

namespace Anonymizer

theorem checker_dataset {a : Anonymizer} {d : Dataset} {order : IterationOrder} {c : Checker}
    (h : a.checker d order = .ok c) : c.dataset = d := Checker.dataset_create h

theorem exists_prepared {a : Anonymizer} {d : Dataset} {order : IterationOrder} {c : Checker}
    (h : a.checker d order = .ok c) {choice : CriterionChoice} (hc : choice ∈ a.settings.criteria) :
    ∃ criterion ∈ c.criteria, (Criterion.ofChoice choice).prepare d = .ok criterion := by
  obtain ⟨criteria, hcriteria, h⟩ := bind_eq_ok.mp h
  obtain ⟨metric, -, h⟩ := bind_eq_ok.mp h
  cases h
  have hall := Dataset.forall₂_mapM hcriteria
  obtain ⟨i, hi, hchoice⟩ := List.getElem_of_mem (List.mem_map_of_mem hc)
  have hi' : i < criteria.length := hall.length_eq ▸ hi
  have hprepared := hall.get hi hi'
  rw [List.get_eq_getElem, hchoice] at hprepared
  exact ⟨_, List.getElem_mem hi', hprepared⟩

theorem satisfies_release {a : Anonymizer} {d : Dataset} {order : IterationOrder}
    {c after : Checker} (hc : a.checker d order = .ok c) (hd : d.WellFormed) (hagrees : after.Agrees c)
    {levels : List Nat} (hl : d.Admits levels) (hanonymous : c.anonymousAt levels = true)
    {r : Release} (h : after.release levels = .ok r) :
    r.Satisfies d a.settings.criteria levels := by
  obtain rfl := checker_dataset hc
  have hready : c.Ready := Checker.ready_create hc
  rw [← hagrees.dataset] at hd hl
  have hgroup := fun (row : Nat) (hrow : row < _) => Checker.group_release hd hl h hrow
  have hrecord := fun (row : Nat) (hrow : row < _) => Checker.record?_release hd hl h hrow
  refine ⟨?_, ?_, ?_⟩
  · rw [(Checker.release_ok hd hl h).1, ← hagrees.dataset]
    rfl
  · intro row hrow
    rw [← hagrees.dataset] at hrow ⊢
    exact ⟨_, hd.generalize_eq hrow hl, hrecord row hrow⟩
  · intro row hrow codes hcodes hmember
    refine Dataset.SatisfiedBy.of_admitted fun choice hchoice => ?_
    rw [← hagrees.dataset] at hrow hmember
    rw [hrecord row hrow] at hcodes
    cases hcodes
    rw [hgroup row hrow] at hmember ⊢
    obtain ⟨other, hother, hmember⟩ := hmember
    obtain ⟨criterion, hcriterion, hprepare⟩ := exists_prepared hc hchoice
    refine ⟨criterion, hprepare, ?_⟩
    rw [hagrees.dataset] at hd hl hrow hother hmember ⊢
    rw [← hready.admits_tracked hcriterion]
    rw [Checker.anonymousAt_iff hd hready hl] at hanonymous
    refine (hanonymous criterion hcriterion _ (Dataset.mem_grouping.mpr
      ⟨row, hrow, rfl⟩)).resolve_left ?_
    exact (List.countP_pos_iff.mpr ⟨other, hother, hmember⟩).ne'

theorem anonymize_ok {a : Anonymizer} {d : Dataset} {surroundings : Surroundings} {c : Checker}
    (hc : a.checker d surroundings.order = .ok c) {l : Lattice}
    (hl : Lattice.ofBounds d.minLevels d.maxLevels = .ok l) {s : Search}
    (hs : Search.ofSettings a.settings.search surroundings.entropy = .ok s)
    {result : Anonymized} (h : a.anonymize d surroundings = .ok result) :
    let x := s.ended surroundings.clock c (.ofLattice l)
    ∃ outcome, (match x.progress.optimum with
        | some id => Outcome.of x.checker x.space id
        | none => .ok Outcome.nothing) = .ok outcome ∧
      result.release = outcome.release ∧ result.report.levels = outcome.levels ∧
      result.report.informationLoss = outcome.informationLoss ∧
      result.report.anonymous = x.progress.optimum.any fun id => x.space.has id Mark.anonymous := by
  simp only [anonymize, hc, hl, hs, ok_bind] at h
  obtain ⟨proved, -, h⟩ := bind_eq_ok.mp h
  dsimp only [Search.ended]
  cases hoptimum : (s.traverse surroundings.clock c (.ofLattice l)).2.1.progress.optimum with
  | none =>
    rw [hoptimum] at h
    cases h
    exact ⟨Outcome.nothing, rfl, rfl, rfl, rfl, rfl⟩
  | some id =>
    rw [hoptimum] at h
    obtain ⟨outcome, houtcome, h⟩ := bind_eq_ok.mp h
    cases h
    exact ⟨outcome, houtcome, rfl, rfl, rfl, rfl⟩

/-- What is reported of a checked anonymous transformation is what is released. -/
theorem Outcome.of_ok {c after : Checker} {space : SolutionSpace} {id : Nat}
    (hserves : after.Serves space.lattice) (hagrees : after.Agrees c)
    (ht : space.Truthful c) (hchecked : space.marked id Mark.checked = true) {outcome : Outcome}
    (h : Outcome.of after space id = .ok outcome) : ∃ release,
      after.release (space.lattice.levelsAt id) = .ok release ∧
      outcome.release = some release ∧ outcome.levels = some (space.lattice.levelsAt id) ∧
      outcome.informationLoss = some release.evaluation.loss.value := by
  have hlevels := Lattice.levelsOf_levelsAt (ht.lt_size hchecked)
  obtain ⟨levels, hlevels', h⟩ := bind_eq_ok.mp h
  cases hlevels.symm.trans hlevels'
  obtain ⟨node, hnode, h⟩ := bind_eq_ok.mp h
  obtain ⟨known, hknown, -, hloss, -⟩ := SolutionSpace.nodeOrUnknown_ok ht.indexed hlevels
  cases hknown.symm.trans hnode
  have hparts : ∃ release score, after.release (space.lattice.levelsAt id) = .ok release ∧
      outcome = ⟨some (space.lattice.levelsAt id), node.loss.map Loss.value, score,
        some release⟩ := by
    dsimp only at h
    split at h
    all_goals
      obtain ⟨score, -, h⟩ := bind_eq_ok.mp h
      obtain ⟨release, hrelease, h⟩ := bind_eq_ok.mp h
      exact ⟨release, _, hrelease, (Except.ok.inj h).symm⟩
  obtain ⟨release, score, hrelease, rfl⟩ := hparts
  refine ⟨release, hrelease, rfl, rfl, ?_⟩
  obtain ⟨loss, hsome, hvalue⟩ := ht.loss id hchecked
  rw [(Checker.release_ok hserves.faithful.wellFormed (hserves.covers.admits hlevels)
    hrelease).2.2, hagrees.lossAt, ← hvalue, hloss, hsome]
  rfl

/-- The data are released at an anonymous transformation, or nothing is released. -/
theorem release_satisfies {a : Anonymizer} {d : Dataset} (hd : d.Accepted)
    (hrecords : d.records < 2 ^ 32) {surroundings : Surroundings} {c : Checker}
    (hc : a.checker d surroundings.order = .ok c) {l : Lattice}
    (hl : Lattice.ofBounds d.minLevels d.maxLevels = .ok l) {s : Search}
    (hs : Search.ofSettings a.settings.search surroundings.entropy = .ok s)
    (hfits : (s.ended surroundings.clock c (.ofLattice l)).Fits) {result : Anonymized}
    (h : a.anonymize d surroundings = .ok result) :
    (∀ release, result.release = some release → ∃ levels, result.report.levels = some levels ∧
      List.Forall₂ (· ≤ ·) d.minLevels levels ∧ List.Forall₂ (· ≤ ·) levels d.maxLevels ∧
      release.Satisfies d a.settings.criteria levels ∧ result.report.anonymous = true ∧
      release.evaluation.anonymous = true ∧
      result.report.informationLoss = some release.evaluation.loss.value) ∧
    (result.release = none ↔ result.report.levels = none) ∧
    (result.report.levels = none → result.report.anonymous = false) := by
  obtain rfl := checker_dataset hc
  have hready : c.Ready := Checker.ready_create hc
  have hfaithful := (Checker.faithful_create hd.wellFormed hrecords hc).1
  have hcovers := hd.wellFormed.covers hl
  have hserves : c.Serves l := ⟨hfaithful, hready, hcovers⟩
  have hsane := s.sane_ended hserves rfl (SolutionSpace.truthful_ofLattice l c) surroundings.clock
  have hfirst : s.progress.optimum = none := Search.optimum_ofSettings hs
  obtain ⟨outcome, houtcome, hrelease, hlevels, hloss, hanonymous⟩ := anonymize_ok hc hl hs h
  rw [hfirst] at hsane
  rw [hrelease, hlevels, hloss, hanonymous]
  have ht := hsane.truthful hfits
  rcases hsane.optimum hfits with hnone | ⟨id, hsome, hchecked, hid⟩
  · rw [hnone] at houtcome ⊢
    cases houtcome
    simp [Outcome.nothing]
  · have hserved := hsane.serves hserves hfits
    rw [hsome] at houtcome ⊢
    obtain ⟨release, hrelease, hout, hlevels, hloss⟩ :=
      Outcome.of_ok hserved hsane.precedes.agrees ht hchecked houtcome
    rw [hout, hlevels, hloss]
    refine ⟨?_, by simp, by simp⟩
    rintro _ ⟨⟩
    rw [hsane.lattice] at hrelease ⊢
    have hlt : id < l.size := hsane.lattice ▸ ht.lt_size hchecked
    have hadmits := hcovers.admits (Lattice.levelsOf_levelsAt hlt)
    have hwithin : Lattice.Within l.axes (l.levelsAt id) := Lattice.decode_within l.axes id
    have hbounds := Lattice.ofBounds_ok hl
    have hagrees := hsane.precedes.agrees
    have hcovered : c.dataset.Covers
        (s.ended surroundings.clock c (.ofLattice l)).space.lattice := by
      rw [hsane.lattice]
      exact hcovers
    have hscan := (Checker.release_ok hserved.faithful.wellFormed
      (hagrees.dataset ▸ hadmits) hrelease).2.1
    refine ⟨_, rfl, hbounds.1 ▸ hwithin.low_le, hbounds.2 ▸ hwithin.le_high,
      satisfies_release hc hd.wellFormed hagrees hadmits hid hrelease, ?_, ?_, rfl⟩
    · rw [Option.any_some, ht.has_anonymous_checked hd.wellFormed hready hcovered
        hsane.predictable hchecked, hsane.lattice, hid]
    · rw [hscan, hagrees.anonymousAt, hid]

/-- The sample is released at its top. -/
theorem release_satisfies_sample : ∃ result release,
    Sample.anonymizer.anonymize Sample.dataset Sample.surroundings = .ok result ∧
      result.release = some release ∧ result.report.levels = some [1] ∧
      release.Satisfies Sample.dataset [.kAnonymity 2] [1] := by
  have hlevels : (Sample.anonymizer.anonymize Sample.dataset Sample.surroundings).toOption.map
      (fun result => (result.release.isSome, result.report.levels)) = some (true, some [1]) := by
    decide +kernel
  cases h : Sample.anonymizer.anonymize Sample.dataset Sample.surroundings with
  | error failure =>
    rw [h] at hlevels
    cases hlevels
  | ok result =>
    rw [h] at hlevels
    have hlevels := Prod.mk.inj (Option.some.inj hlevels)
    obtain ⟨release, hrelease⟩ := Option.isSome_iff_exists.mp hlevels.1
    refine ⟨result, release, rfl, hrelease, hlevels.2, ?_⟩
    have hchecker : Sample.anonymizer.checker Sample.dataset .firstSeen =
        .ok (Sample.checker Sample.keeping) := rfl
    obtain ⟨levels, hown, -, -, hsatisfies, -⟩ := (release_satisfies Sample.dataset_accepted
      (by decide) hchecker Sample.lattice_eq rfl (show _ < _ by decide +kernel) h).1
      release hrelease
    cases hlevels.2.symm.trans hown
    exact hsatisfies

end Anonymizer
end Recoding
