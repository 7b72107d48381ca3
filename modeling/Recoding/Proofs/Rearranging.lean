import Recoding.Proofs.Check.Rearranged
import Recoding.Proofs.Check.Released
import Recoding.Proofs.Conclusion
import Recoding.Proofs.Search.Optimality

/-!
# The order of the records

Nothing that a run decides depends on the order of the records: rearranged records lead through the
same checks, scans and draws to the same report, and to the same released rows in the same new
order.
-/

namespace Recoding

/-! ## Searches -/

namespace Checker

theorem Rearranged.agrees {place : Nat → Nat} {a b x y : Checker} (h : a.Rearranged place b)
    (hx : x.Agrees a) (hy : y.Agrees b) : x.Rearranged place y where
  dataset := by rw [hy.dataset, h.dataset, hx.dataset]
  criteria := hy.criteria.trans (h.criteria.trans hx.criteria.symm)
  metric := hy.metric.trans (h.metric.trans hx.metric.symm)
  tracks := hy.tracks.trans (h.tracks.trans hx.tracks.symm)

theorem dictionary_prepared (c : Checker) (levels : List Nat) (fromRecords : Bool) :
    (c.prepared levels fromRecords).history.dictionary = c.history.dictionary := by
  cases fromRecords with
  | true => rfl
  | false =>
    show (c.history.findClosest levels).2.dictionary = _
    unfold History.findClosest
    cases c.history.closest? levels <;> rfl

section
variable {place : Nat → Nat} {a b : Checker} {l : Lattice} (h : a.Rearranged place b)
  (hp : Rearranges place a.dataset.records) (ha : a.Serves l) (hb : b.Serves l)
  (hm : a.metric.Unordered a.dataset)
include h hp ha hb hm

/-- Checkers of rearranged records give the same answers and go on alike. The numbers of their
distributions fit if those of the original ones do. -/
theorem Mirrored.check {x y : Checker} (hxy : Mirrored a b x y) {space : SolutionSpace}
    (hl : space.lattice = l) (id : Nat) (objective : Objective)
    (hfits : (x.check space id false objective).2.1.history.dictionary.size < 2 ^ 32) :
    (x.check space id false objective).1.map (fun _ => ()) =
        (y.check space id false objective).1.map (fun _ => ()) ∧
      (x.check space id false objective).2.2 = (y.check space id false objective).2.2 ∧
      Mirrored a b (x.check space id false objective).2.1
        (y.check space id false objective).2.1 := by
  have hfits : x.history.dictionary.size < 2 ^ 32 :=
    lt_of_le_of_lt (x.agrees_check space id false objective).2.size_le hfits
  have hfits' : y.history.dictionary.size < 2 ^ 32 := hxy.history.dictionary.size_eq ▸ hfits
  have hx := ha.precedes hxy.left hfits
  have hy := hb.precedes hxy.right hfits'
  have hrearranged := h.agrees hxy.left.agrees hxy.right.agrees
  subst hl
  cases hlevels : space.lattice.levelsOf id with
  | error failure =>
    rw [check_unknown hlevels, check_unknown hlevels]
    exact ⟨rfl, rfl, hxy⟩
  | ok levels =>
    have hprepared := hxy.prepared levels
    obtain ⟨hkind, hsize, -⟩ := hxy.plan levels
    have hscans := hrearranged.fullScan hx.faithful.wellFormed
      (hxy.left.agrees.dataset ▸ hp) hy.faithful.wellFormed hx.ready hy.ready
      (hx.covers.admits hlevels) (by rw [hxy.left.agrees.metric, hxy.left.agrees.dataset]; exact hm)
      objective
    rw [hx.faithful.check_scan hx.covers hlevels, hy.faithful.check_scan hy.covers hlevels, ← hkind]
    rcases hleft : x.fullScan levels objective with failure | ⟨e, g⟩ <;>
      rcases hright : y.fullScan levels objective with failure' | ⟨e', other⟩ <;>
      rw [hleft, hright] at hscans <;> cases hscans
    · exact ⟨rfl, rfl, hprepared⟩
    · rename_i hsame
      obtain ⟨rfl, hpermuted⟩ : e = e' ∧ g.Permuted other := hsame
      obtain ⟨recorded, hrecorded⟩ := exists_record hlevels
        { e with kind := (x.plan levels false).1.kind }
      dsimp only
      rw [hrecorded]
      have hready := fun (c : Checker) (hc : c.Serves space.lattice)
          (hsize : c.history.dictionary.size < 2 ^ 32) =>
        (c.precedes_prepared levels false).faithful (c.dictionary_prepared levels false ▸ hsize)
          hc.faithful
      have hagrees := fun c : Checker => (c.precedes_prepared levels false).agrees
      have hgrouping : ∀ {c : Checker} {e : Evaluation} {g : Grouping},
          c.fullScan levels objective = .ok (e, g) →
            g.unjudged = (c.prepared levels false).grouping levels := by
        intro c e g hscan
        rw [(hagrees c).grouping, Grouping.analyze_unjudged (evaluate_ok hscan).1]
        exact Grouping.unjudged_ofContributions _ _
      refine ⟨rfl, rfl, hprepared.keep (hready x hx hfits) (hready y hy hfits') ?_ ?_ ?_
        (hgrouping hleft) (hgrouping hright) hpermuted id _ hsize⟩
      · exact (hagrees x).dataset ▸ hx.covers.admits hlevels
      · exact (hagrees y).dataset ▸ hy.covers.admits hlevels
      · exact (hrearranged.agrees (hagrees x) (hagrees y)).tracks.symm

theorem bisimulation_mirrored : Bisimulation (Mirrored a b) False l where
  metric hxy := (h.agrees hxy.left.agrees hxy.right.agrees).metric.symm
  criteria hxy := (h.agrees hxy.left.agrees hxy.right.agrees).criteria.symm
  retention hxy retention := ⟨hxy.left.trans (precedes_setRetention _ retention),
    hxy.right.trans (precedes_setRetention _ retention), hxy.history.setRetention retention,
    hxy.last, hxy.counters⟩
  count hxy f _ := hxy.count f
  check hxy _ hl id objective hfits _ := hxy.check h hp ha hb hm hl id objective hfits

end
end Checker

/-! ## Releases -/

def Release.rearrange (r : Release) (place : Nat → Nat) : Release :=
  { r with
    generalized := r.generalized.rearrange place
    microaggregated := r.microaggregated.map (·.rearrange place) }

namespace Dataset

section
variable {d : Dataset} (hd : d.WellFormed) {place : Nat → Nat}
  (hp : Rearranges place d.records) (levels : List Nat)
include hd hp

theorem tableOf_rearrange :
    (d.rearrange place).tableOf ((List.range d.records).map ((d.rearrange place).key levels)) =
      (d.tableOf ((List.range d.records).map (d.key levels))).rearrange place := by
  have hentry : ∀ (key : Nat → List Nat) (row : Nat), row < d.records →
      (((List.range d.records).map key).map List.toArray).toArray.getD row #[] =
        (key row).toArray := by
    intro key row hr
    simp [Array.getD, hr]
  unfold tableOf
  rw [CodeTable.rearrange_tabulate hp]
  refine CodeTable.tabulate_congr fun row hr column _ => ?_
  rw [hentry _ row hr, hentry _ (place row) (hp.lt hr), key_rearrange hd hp hr]

theorem aggregated_rearrange :
    (d.rearrange place).aggregated levels = (d.aggregated levels).map (·.rearrange place) := by
  have hown : (d.rearrange place).microaggregation = d.microaggregation.map fun m =>
      { m with table := m.table.rearrange place } := rfl
  unfold aggregated
  rw [hown]
  cases hm : d.microaggregation with
  | none => rfl
  | some m =>
    obtain ⟨hrows, -⟩ := hd.aggregated_rows m (by simp [hm])
    have hp' : Rearranges place m.table.rows := hrows ▸ hp
    simp only [Option.map_some]
    rw [CodeTable.rearrange_tabulate hp']
    refine congrArg some (CodeTable.tabulate_congr fun row hr column hc => ?_)
    have hr' : row < d.records := hrows ▸ hr
    have hrow : ∀ (d : Dataset) (m : Microaggregation), m.table.rows = d.records → ∀ row,
        m.collapsed (d.key levels) row column = (m.functions.getD column .mode).collapse
          ((d.rowsWith levels (d.key levels row)).map fun other =>
            (m.table.get? other column).getD 0) := by
      intro d m hm row
      unfold Microaggregation.collapsed
      rw [hm]
      rfl
    rw [hrow d m hrows, hrow (d.rearrange place) { m with table := m.table.rearrange place } hrows,
      key_rearrange hd hp hr']
    apply Aggregation.collapse_perm
    have hvalues : (((d.rearrange place).rowsWith levels (d.key levels (place row))).map fun other =>
        ((m.table.rearrange place).get? other column).getD 0) =
        (((d.rearrange place).rowsWith levels (d.key levels (place row))).map place).map fun other =>
          (m.table.get? other column).getD 0 := by
      rw [List.map_map]
      refine List.map_congr_left fun other hother => ?_
      have hlt : other < m.table.rows := hrows ▸ (mem_rowsWith.mp hother).1
      rw [CodeTable.get?_rearrange hlt (hp'.lt hlt) hc]
      rfl
    dsimp only
    rw [hvalues]
    exact (perm_rowsWith hd hp levels _).map _

end
end Dataset

theorem Checker.Rearranged.release {place : Nat → Nat} {c other : Checker}
    (h : c.Rearranged place other) (hd : c.dataset.WellFormed)
    (hp : Rearranges place c.dataset.records) (hd' : other.dataset.WellFormed) (hc : c.Ready)
    (hc' : other.Ready) {levels : List Nat} (hl : c.dataset.Admits levels)
    (hm : c.metric.Unordered c.dataset) :
    SameOutcome (fun r s => s = r.rearrange place) (c.release levels) (other.release levels) := by
  have hl' : other.dataset.Admits levels := by
    rw [h.dataset]
    exact hl
  rw [c.release_eq hd hl, other.release_eq hd' hl']
  refine .map (h.fullScan hd hp hd' hc hc' hl hm .loss) ?_
  rintro ⟨e, g⟩ ⟨e', other⟩ ⟨hsame, -⟩
  dsimp only at hsame
  rw [h.dataset, Dataset.aggregated_rearrange hd hp, Dataset.records_rearrange,
    Dataset.tableOf_rearrange hd hp, hsame]
  rfl

/-! ## Runs -/

section
variable {d : Dataset} {place : Nat → Nat}

theorem Criterion.prepare_rearrange
    (hsize : (d.rearrange place).subsetSize = d.subsetSize) (c : Criterion) :
    c.prepare (d.rearrange place) = c.prepare d := by
  have hsensitive : (d.rearrange place).sensitive.isNone = d.sensitive.isNone :=
    Option.isNone_map
  cases c with
  | inclusion size => simp only [prepare, hsize]
  | kAnonymity k => rfl
  | distinctDiversity l => simp only [prepare, hsensitive]
  | profitability attacker payoffs shares floor => rfl

theorem Metric.prepare_rearrange {m : Metric} (hm : m.Unordered d)
    (hsize : (d.rearrange place).subsetSize = d.subsetSize) :
    m.prepare (d.rearrange place) = m.prepare d := by
  cases m with
  | height aggregate => rfl
  | normalizedEntropy aggregate order tables => exact hm.elim
  | discernability records => simp only [prepare, hsize]
  | entropyDomainShare tables => exact hm.elim

/-- Metrics that see no order of classes do not see one of hash maps either. -/
theorem Metric.Unordered.ofChoice_eq {order : IterationOrder} {choice : MetricChoice}
    (h : (ofChoice order choice).Unordered d) (other : IterationOrder) :
    ofChoice other choice = ofChoice order choice := by
  cases choice with
  | normalizedEntropy aggregate => exact h.elim
  | _ => rfl

theorem Metric.Unordered.prepare {m n : Metric} (hm : m.Unordered d)
    (h : m.prepare d = .ok n) : n.Unordered d := by
  cases m with
  | height aggregate =>
    cases h
    exact hm
  | normalizedEntropy aggregate order tables => exact hm.elim
  | discernability records =>
    cases h
    exact hm
  | entropyDomainShare tables => exact hm.elim

end

def Anonymized.rearrange (result : Anonymized) (place : Nat → Nat) : Anonymized :=
  { result with release := result.release.map (·.rearrange place) }

namespace Anonymizer

def Outcome.rearrange (outcome : Outcome) (place : Nat → Nat) : Outcome :=
  { outcome with release := outcome.release.map (·.rearrange place) }

/-- Searches that end abreast release the same rows in the order of their places. -/
theorem Outcome.ofEnd_rearranged {place : Nat → Nat} {c c' : Checker}
    (h : c.Rearranged place c') (hp : Rearranges place c.dataset.records)
    (hm : c.metric.Unordered c.dataset) {l : Lattice} {x y : Exploration}
    {S : RandomSource → RandomSource → Prop}
    (hended : Exploration.Abreast (Checker.Mirrored c c') S l x y)
    (hx : x.checker.Serves l) (hy : y.checker.Serves l) :
    SameOutcome (fun o o' => o' = o.rearrange place) (ofEnd x) (ofEnd y) := by
  have hagrees := hended.checker.left.agrees
  have hrearranged := h.agrees hagrees hended.checker.right.agrees
  unfold ofEnd
  rw [← hended.progress, ← hended.space]
  cases x.progress.optimum with
  | none => exact .ok rfl
  | some id =>
    dsimp only
    rw [of_eq, of_eq]
    refine .bind_self fun levels hlevels => ?_
    refine .bind_self fun node _ => ?_
    refine .bind_self fun score _ => ?_
    rw [hended.lattice] at hlevels
    have hrelease := hrearranged.release hx.faithful.wellFormed (hagrees.dataset.symm ▸ hp)
      hy.faithful.wellFormed hx.ready hy.ready (hx.covers.admits hlevels)
      (by rw [hagrees.metric, hagrees.dataset]; exact hm)
    refine hrelease.map ?_
    rintro release _ rfl
    rfl

section
variable {a : Anonymizer} {d : Dataset} (hd : d.Accepted) {place : Nat → Nat}
  (hp : Rearranges place d.records)
  {order : IterationOrder} (hmetric : (Metric.ofChoice order a.settings.metric).Unordered d)
include hd hp hmetric

theorem rearranged_checker (other : IterationOrder) : SameOutcome
    (fun c c' => c.Rearranged place c' ∧ c.Mirrored c' c c' ∧ c.metric.Unordered c.dataset)
    (a.checker d order) (a.checker (d.rearrange place) other) := by
  have hsize := Dataset.WellFormed.subsetSize_rearrange hd.wellFormed hp
    (hd.rearrange hp).wellFormed
  have hcriteria : (fun c : Criterion => c.prepare (d.rearrange place)) =
      fun c => c.prepare d := funext (Criterion.prepare_rearrange hsize)
  unfold checker Checker.create
  rw [hcriteria, hmetric.ofChoice_eq other, Metric.prepare_rearrange hmetric hsize]
  refine .bind_self fun criteria _ => ?_
  refine .bind_self fun metric hmetric' => ?_
  refine .ok ⟨⟨rfl, rfl, rfl, rfl⟩, ⟨.refl _, .refl _, ?_, .none, rfl⟩, hmetric.prepare hmetric'⟩
  exact History.mirrors_empty _ _

end

/-- The order of the records changes nothing but the order of the released rows: a run with
rearranged records fails as the original one does, or returns the same report, and the same rows
in the new order. -/
theorem rearrange_invariant {a : Anonymizer} {d : Dataset} (hd : d.Accepted)
    (hrecords : d.records < 2 ^ 32) {place : Nat → Nat} (hp : Rearranges place d.records)
    {surroundings : Surroundings}
    (hmetric : (Metric.ofChoice surroundings.order a.settings.metric).Unordered d)
    (htime : a.settings.search.timeLimit = none)
    (hdraws : a.settings.search.method = .privateWalk → a.settings.search.deterministic = true)
    (hfits : a.Fits d surroundings) (others : Surroundings) :
    a.anonymize (d.rearrange place) others =
      (a.anonymize d surroundings).map (·.rearrange place) := by
  rw [anonymize_eq, anonymize_eq]
  refine SameOutcome.eq_map (.bind (rearranged_checker hd hp hmetric others.order) ?_)
  rintro c c' hc hc' ⟨hrearranged, hstart, hunordered⟩
  refine .bind (.of_eq (Q := Eq) fun _ _ => rfl) ?_
  rintro l _ hl - rfl
  refine .bind (Search.twin_ofSettings hdraws _ _) ?_
  rintro s t hs ht ⟨htwin, hlimit⟩
  have hfits := hfits c l s hc hl hs
  have hserves := Checker.serves_create hd hrecords hc hl
  have hserves' := Checker.serves_create (hd.rearrange hp) hrecords hc' hl
  have hdataset : c.dataset = d := checker_dataset hc
  have hp : Rearranges place c.dataset.records := hdataset ▸ hp
  obtain ⟨hanswer, hended⟩ := Search.abreast_ended
    (Checker.bisimulation_mirrored hrearranged hp hserves hserves' hunordered) hstart
    (.ofLattice l) rfl htwin (hlimit.trans htime) surroundings.clock others.clock hfits
    fun h => h.elim
  have hfits' : (t.ended others.clock c' (.ofLattice l)).Fits :=
    hended.checker.history.dictionary.size_eq.symm.trans_lt hfits
  have houtcome := Outcome.ofEnd_rearranged hrearranged hp hunordered hended
    (hserves.precedes hended.checker.left hfits) (hserves'.precedes hended.checker.right hfits')
  have hagrees := hrearranged.agrees hended.checker.left.agrees hended.checker.right.agrees
  unfold conclude
  rw [← hanswer, ← htwin.plan]
  refine .bind (.of_eq (Q := Eq) fun _ _ => rfl) ?_
  rintro proved _ - - rfl
  refine houtcome.map ?_
  rintro outcome _ rfl
  have hreport := concluded_congr (a := a) (b := a) rfl hended.progress.symm hended.space.symm
    hagrees.criteria hagrees.metric s.plan proved (outcome.rearrange place)
    outcome rfl rfl rfl
  rw [← hended.checker.counters] at hreport
  exact congrArg (Anonymized.mk (outcome.release.map (·.rearrange place))) hreport

/-- The sample is released as it is, and swapped if its records are. -/
theorem rearrange_invariant_sample :
    let swap := fun row => 1 - row
    let runs := fun d : Dataset => Sample.permissive.anonymize d Sample.surroundings
    let firstCode := fun d : Dataset =>
      (runs d).toOption.bind (·.release) |>.bind (·.generalized.get? 0 0)
    runs (Sample.dataset.rearrange swap) = (runs Sample.dataset).map (·.rearrange swap) ∧
      firstCode Sample.dataset = some 0 ∧ firstCode (Sample.dataset.rearrange swap) = some 1 := by
  have hfits : Sample.permissive.Fits Sample.dataset Sample.surroundings := by
    intro c l s hc hl hs
    have hchecker : Sample.permissive.checker Sample.dataset .firstSeen =
        .ok { Sample.checker Sample.keeping with criteria := [.kAnonymity 1] } := rfl
    cases Sample.lattice_eq.symm.trans hl
    cases Sample.search_eq.symm.trans hs
    cases hchecker.symm.trans hc
    exact (show _ < _ by decide +kernel)
  have hswap : Rearranges (fun row => 1 - row) Sample.dataset.records := List.Perm.swap 0 1 []
  refine ⟨?_, by decide +kernel, by decide +kernel⟩
  exact rearrange_invariant (a := Sample.permissive) Sample.dataset_accepted (by decide) hswap
    trivial rfl (by decide) hfits Sample.surroundings

end Anonymizer
end Recoding
