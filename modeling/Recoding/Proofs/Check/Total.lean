import Recoding.Proofs.Check.Faithful
import Recoding.Proofs.Grouping.Grounded
import Recoding.Proofs.Hierarchy.Shares

/-!
# Scans always succeed

A created checker has prepared criteria and a prepared metric. On a grouping of its dataset
both have an answer, so a scan of all records by the loss cannot fail, and every
transformation has a verdict, a loss and a bound.
-/

namespace Recoding

/-! ## Criteria -/

namespace Criterion

theorem firstRejected_cons (c : Criterion) (levels : List Nat) (e : EquivalenceClass)
    (rest : List EquivalenceClass) : c.firstRejected levels (e :: rest) =
      (if e.count = 0 then .ok true else c.admits levels e) >>= fun accepted =>
        if accepted then (c.firstRejected levels rest).map fun place => place.map (· + 1)
        else .ok (some 0) := by
  simp only [firstRejected]
  by_cases hcount : e.count = 0
  · rw [if_pos hcount, if_pos hcount]
    cases c.firstRejected levels rest <;> rfl
  · rw [if_neg hcount, if_neg hcount]
    cases c.admits levels e with
    | error failure => rfl
    | ok accepted =>
      cases accepted with
      | true => cases c.firstRejected levels rest <;> rfl
      | false => rfl

theorem firstRejected_ok {c : Criterion} {levels : List Nat} {classes : List EquivalenceClass}
    (h : ∀ e ∈ classes, ∃ accepted, c.admits levels e = .ok accepted) :
    ∃ place, c.firstRejected levels classes = .ok place := by
  induction classes with
  | nil => exact ⟨none, rfl⟩
  | cons e rest ih =>
    obtain ⟨accepted, haccepted⟩ := h e List.mem_cons_self
    obtain ⟨place, hplace⟩ := ih fun x hx => h x (List.mem_cons_of_mem _ hx)
    rw [firstRejected_cons]
    by_cases hcount : e.count = 0
    · exact ⟨_, by rw [if_pos hcount, hplace]; rfl⟩
    · rw [if_neg hcount, haccepted]
      cases accepted with
      | true => exact ⟨_, by rw [hplace]; rfl⟩
      | false => exact ⟨some 0, rfl⟩

/-- A criterion rejects nothing if it admits every class with records in the subset. -/
theorem firstRejected_none {c : Criterion} {levels : List Nat}
    {classes : List EquivalenceClass} : c.firstRejected levels classes = .ok none ↔
      ∀ e ∈ classes, e.count = 0 ∨ c.admits levels e = .ok true := by
  induction classes with
  | nil => simp [firstRejected]
  | cons e rest ih =>
    have hrest : (c.firstRejected levels rest).map (fun place => place.map (· + 1)) =
        .ok none ↔ c.firstRejected levels rest = .ok none := by
      cases c.firstRejected levels rest <;> simp
    rw [List.forall_mem_cons, ← ih, ← hrest, firstRejected_cons]
    by_cases hcount : e.count = 0
    · simp [hcount]
    · rw [if_neg hcount]
      cases haccepted : c.admits levels e with
      | error failure => simp [hcount]
      | ok accepted => cases accepted <;> simp [hcount]

end Criterion

theorem firstRejection_cons (levels : List Nat) (classes : List EquivalenceClass)
    (c : Criterion) (rest : List Criterion) : firstRejection levels classes (c :: rest) =
      c.firstRejected levels classes >>= fun
        | some place => .ok (some place)
        | none => firstRejection levels classes rest := by
  rfl

theorem firstRejection_ok {levels : List Nat} {classes : List EquivalenceClass}
    {criteria : List Criterion}
    (h : ∀ c ∈ criteria, ∀ e ∈ classes, ∃ accepted, c.admits levels e = .ok accepted) :
    ∃ place, firstRejection levels classes criteria = .ok place := by
  induction criteria with
  | nil => exact ⟨none, rfl⟩
  | cons c rest ih =>
    obtain ⟨place, hplace⟩ := Criterion.firstRejected_ok (h c List.mem_cons_self)
    obtain ⟨other, hother⟩ := ih fun x hx => h x (List.mem_cons_of_mem _ hx)
    rw [firstRejection_cons, hplace, ok_bind]
    cases place with
    | none => exact ⟨other, hother⟩
    | some place => exact ⟨some place, rfl⟩

theorem firstRejection_none {levels : List Nat} {classes : List EquivalenceClass}
    {criteria : List Criterion} : firstRejection levels classes criteria = .ok none ↔
      ∀ c ∈ criteria, ∀ e ∈ classes, e.count = 0 ∨ c.admits levels e = .ok true := by
  induction criteria with
  | nil => simp [firstRejection]
  | cons c rest ih =>
    rw [List.forall_mem_cons, ← ih, ← Criterion.firstRejected_none]
    rw [firstRejection_cons]
    cases c.firstRejected levels classes with
    | error failure => simp
    | ok place => cases place <;> simp

/-- A grouping is anonymous if all criteria admit all classes with records in the subset. -/
theorem Grouping.analyze_true {g judged : Grouping} {levels : List Nat}
    {criteria : List Criterion} {anonymous : Bool}
    (h : g.analyze levels criteria = .ok (anonymous, judged)) :
    anonymous = true ↔
      ∀ c ∈ criteria, ∀ e ∈ g.classes, e.count = 0 ∨ c.admits levels e = .ok true := by
  rw [← firstRejection_none]
  unfold analyze at h
  cases hfirst : firstRejection levels g.classes criteria with
  | error failure =>
    rw [hfirst] at h
    cases h
  | ok place =>
    rw [hfirst] at h
    cases place <;> cases h <;> simp

theorem Grouping.analyze_ok {g : Grouping} {levels : List Nat} {criteria : List Criterion}
    (h : ∀ c ∈ criteria, ∀ e ∈ g.classes, ∃ accepted, c.admits levels e = .ok accepted) :
    ∃ anonymous judged, g.analyze levels criteria = .ok (anonymous, judged) := by
  obtain ⟨place, hplace⟩ := firstRejection_ok h
  unfold analyze
  rw [hplace]
  cases place <;> exact ⟨_, _, rfl⟩

/-! ## Domain shares -/

theorem DomainShare.loss?_some {shares : List DomainShare} {levels key : List Nat}
    (hlevels : levels.length = shares.length) (hkey : key.length = shares.length)
    (floor : Float) : ∃ loss, DomainShare.loss? shares floor levels key = some loss := by
  exact ⟨_, by rw [DomainShare.loss?, DomainShare.factors_eq hkey hlevels]; rfl⟩

namespace Checker

/-- The criteria and the metric have been prepared with the dataset. -/
structure Ready (c : Checker) : Prop where
  criteria : ∀ criterion ∈ c.criteria, ∃ raw, Criterion.prepare raw c.dataset = .ok criterion
  metric : ∃ raw, Metric.prepare raw c.dataset = .ok c.metric
  tracks : c.tracks = c.criteria.any (·.requirements.distribution)

theorem ready_create {d : Dataset} {criteria : List Criterion} {metric : Metric}
    {settings : CheckerSettings} {c : Checker}
    (h : create d criteria metric settings = .ok c) : c.Ready := by
  obtain ⟨prepared, hprepared, h⟩ := bind_eq_ok.mp h
  obtain ⟨measured, hmeasured, h⟩ := bind_eq_ok.mp h
  cases h
  refine ⟨fun criterion hcriterion => ?_, ⟨metric, hmeasured⟩, rfl⟩
  have hall := Dataset.forall₂_mapM hprepared
  obtain ⟨i, hi, rfl⟩ := List.getElem_of_mem hcriterion
  exact ⟨_, hall.get (i := i) (by rw [hall.length_eq]; exact hi) hi⟩

theorem Ready.agrees {a b : Checker} (h : a.Ready) (k : b.Agrees a) : b.Ready :=
  ⟨by rw [k.criteria, k.dataset]; exact h.criteria, by rw [k.metric, k.dataset]; exact h.metric,
    by rw [k.tracks, k.criteria]; exact h.tracks⟩

section
variable {c : Checker} {levels : List Nat} (hl : c.dataset.Admits levels)
include hl

theorem shares_length : levels.length = c.dataset.shares.length := by
  rw [hl.length_eq, Dataset.shares, List.length_map]

theorem entropyLoss_ok (aggregate : Aggregate) (tables : EntropyTables)
    {order : IterationOrder} (h : Metric.entropyLosses? c.dataset order = some tables.losses) :
    ∃ loss, Metric.entropyLoss aggregate tables levels = .ok loss := by
  have hcolumns := forall₂_mapM_some h
  have hvalues : ∃ values, (levels.zipIdx.mapM fun p =>
      tables.losses[p.2]? >>= fun losses => losses[p.1]?) = some values := by
    refine mapM_some fun p hp => ?_
    obtain ⟨i, hi, rfl⟩ := List.getElem_of_mem hp
    have hi : i < levels.length := by simpa using hi
    have hh : i < c.dataset.hierarchies.length := by rwa [← hl.length_eq]
    have hlevel := (List.forall₂_iff_get.mp hl).2 i hh hi
    have hi' : i < tables.losses.length := by
      rw [← hcolumns.length_eq, List.length_zipIdx, ← hl.length_eq]
      exact hi
    have hcolumn := hcolumns.get (i := i) (by rw [hcolumns.length_eq]; exact hi') hi'
    simp only [List.get_eq_getElem, List.getElem_zipIdx, Nat.zero_add] at hcolumn hlevel
    obtain ⟨values, -, hentropy⟩ := Option.bind_eq_some_iff.mp hcolumn
    have hlength : tables.losses[i].length = c.dataset.hierarchies[i].height := by
      rw [← (forall₂_mapM_some hentropy).length_eq, List.length_range]
    refine ⟨tables.losses[i][levels[i]], ?_⟩
    simp [hi', hlength, hlevel]
  obtain ⟨values, hvalues⟩ := hvalues
  refine ⟨.ofValues aggregate values, ?_⟩
  change (Failure.found (levels.zipIdx.mapM fun p => tables.losses[p.2]? >>= fun losses =>
    losses[p.1]?) >>= fun values => pure (Loss.ofValues aggregate values)) = _
  rw [hvalues]
  rfl

theorem class_loss {e : EquivalenceClass} (he : e.key.length = c.dataset.hierarchies.length)
    (floor : Float) : ∃ loss, DomainShare.loss? c.dataset.shares floor levels e.key = some loss :=
  DomainShare.loss?_some (shares_length hl) (he.trans (List.length_map _).symm) floor

theorem shareLoss_ok {g : Grouping} (hg : g.Wide c.dataset.hierarchies.length) (floor : Float) :
    ∃ loss, Metric.shareLoss ⟨c.dataset.shares, floor⟩ levels g = .ok loss := by
  obtain ⟨last, hlast⟩ := foldlM_ok
    (fun (p : Float × Nat) (e : EquivalenceClass) => do
      let loss ← Failure.found (DomainShare.loss? c.dataset.shares floor levels e.key)
      return (p.1 + Binary64.ofCount e.count * loss, p.2 + e.count))
    (fun p e (he : e ∈ g.classes.filter (0 < ·.count)) => by
      obtain ⟨loss, hloss⟩ := class_loss hl (hg e (List.mem_of_mem_filter he)) floor
      exact ⟨_, by rw [hloss]; rfl⟩) (0.0, 0)
  exact ⟨_, by rw [Metric.shareLoss]; exact bind_eq_ok.mpr ⟨last, hlast, rfl⟩⟩

variable (hc : c.Ready)
include hc

theorem admits_ok {criterion : Criterion} (hcriterion : criterion ∈ c.criteria)
    {e : EquivalenceClass} (he : e.key.length = c.dataset.hierarchies.length) :
    ∃ accepted, criterion.admits levels e = .ok accepted := by
  obtain ⟨raw, hraw⟩ := hc.criteria criterion hcriterion
  cases raw with
  | inclusion size =>
    cases hraw
    exact ⟨true, rfl⟩
  | kAnonymity k =>
    simp only [Criterion.prepare] at hraw
    split_ifs at hraw
    cases hraw
    exact ⟨_, rfl⟩
  | distinctDiversity l =>
    simp only [Criterion.prepare] at hraw
    split_ifs at hraw
    cases hraw
    exact ⟨_, rfl⟩
  | profitability attacker payoffs shares floor =>
    cases hraw
    obtain ⟨loss, hloss⟩ := class_loss hl he (DomainShare.leafProduct c.dataset.shares)
    simp only [Criterion.admits, hloss]
    split_ifs
    · exact ⟨false, rfl⟩
    · exact ⟨_, rfl⟩

/-! ## Metrics -/

theorem lowerBound_ok : ∃ bound, c.metric.lowerBound levels = .ok (some bound) := by
  obtain ⟨raw, hraw⟩ := hc.metric
  cases raw with
  | height aggregate =>
    rw [← Except.ok.inj hraw]
    exact ⟨_, rfl⟩
  | normalizedEntropy aggregate order tables =>
    obtain ⟨losses, hlosses, hraw⟩ := bind_eq_ok.mp hraw
    rw [← Except.ok.inj hraw]
    cases hsome : Metric.entropyLosses? c.dataset order with
    | none =>
      rw [hsome] at hlosses
      cases hlosses
    | some losses =>
      rw [hsome] at hlosses
      cases hlosses
      obtain ⟨loss, hloss⟩ := entropyLoss_ok hl aggregate ⟨losses, c.dataset.shares⟩ hsome
      exact ⟨loss, by simp [Metric.lowerBound, Metric.prepared, hloss]⟩
  | discernability records =>
    rw [← Except.ok.inj hraw]
    exact ⟨_, rfl⟩
  | entropyDomainShare tables =>
    rw [← Except.ok.inj hraw]
    simp only [Metric.lowerBound, Metric.prepared, ok_bind]
    split_ifs <;> exact ⟨_, rfl⟩

/-- The loss of a grouping with one code per hierarchy can always be measured. -/
theorem loss_ok {g : Grouping} (hg : g.Wide c.dataset.hierarchies.length) :
    ∃ measured, c.metric.loss levels g = .ok measured := by
  obtain ⟨bound, hbound⟩ := lowerBound_ok hl hc
  obtain ⟨raw, hraw⟩ := hc.metric
  cases raw with
  | height aggregate =>
    rw [← Except.ok.inj hraw]
    exact ⟨_, rfl⟩
  | normalizedEntropy aggregate order tables =>
    obtain ⟨losses, hlosses, hraw⟩ := bind_eq_ok.mp hraw
    have hmetric := Except.ok.inj hraw
    rw [← hmetric] at hbound ⊢
    simp only [Metric.lowerBound, Metric.prepared, ok_bind] at hbound
    obtain ⟨loss, hloss, -⟩ := bind_eq_ok.mp hbound
    exact ⟨.exact loss, by simp [Metric.loss, Metric.prepared, hloss]⟩
  | discernability records =>
    have hmetric := Except.ok.inj hraw
    rw [← hmetric] at hbound ⊢
    exact ⟨_, by simp only [Metric.loss, hbound, ok_bind, pure_eq_ok]; rfl⟩
  | entropyDomainShare tables =>
    have hmetric := Except.ok.inj hraw
    rw [← hmetric] at hbound ⊢
    obtain ⟨loss, hloss⟩ := shareLoss_ok hl hg (DomainShare.leafProduct c.dataset.shares)
    exact ⟨⟨.scalar loss, some bound⟩, by
      simp only [Metric.loss, hbound, Metric.prepared, ok_bind, hloss, pure_eq_ok]⟩

/-- A grouping with one code per hierarchy can always be evaluated but for its score. -/
theorem evaluate_scored {g : Grouping} (hg : g.Wide c.dataset.hierarchies.length)
    (kind : ScanKind) (objective : Objective) :
    ∃ (e : Evaluation) (judged : Grouping), judged.unjudged = g.unjudged ∧
      c.evaluate levels g kind objective =
        (c.scoreOf levels judged objective).map fun score => ({ e with score }, judged) := by
  obtain ⟨anonymous, judged, hanalyze⟩ := Grouping.analyze_ok fun criterion hcriterion e he =>
    admits_ok hl hc hcriterion (hg e he)
  have hjudged := Grouping.analyze_unjudged hanalyze
  obtain ⟨measured, hmeasured⟩ := loss_ok hl hc (hg.unjudged hjudged)
  obtain ⟨bound, hbound⟩ := lowerBound_ok hl hc
  have hbound : ∃ bound, c.boundOf levels measured = .ok bound := by
    unfold boundOf
    cases measured.lowerBound with
    | none => exact ⟨_, hbound⟩
    | some own => exact ⟨_, rfl⟩
  obtain ⟨bound, hbound⟩ := hbound
  refine ⟨⟨anonymous, measured.loss, bound, none, judged.size, kind⟩, judged, hjudged, ?_⟩
  rw [evaluate_eq, hanalyze, ok_bind, hmeasured, ok_bind, hbound, ok_bind]

end

theorem fullScan_ok {c : Checker} {levels : List Nat} (hl : c.dataset.Admits levels)
    (hd : c.dataset.WellFormed) (hc : c.Ready) :
    ∃ e g, c.fullScan levels .loss = .ok (e, g) := by
  obtain ⟨e, judged, -, hscan⟩ :=
    evaluate_scored hl hc (hd.grounded_grouping hl c.tracks).2 .full .loss
  exact ⟨_, judged, hscan⟩

/-! ## The answers -/

def anonymousAt (c : Checker) (levels : List Nat) : Bool :=
  match c.fullScan levels .loss with
  | .ok (e, _) => e.anonymous
  | .error _ => false

def lossAt (c : Checker) (levels : List Nat) : Float :=
  match c.fullScan levels .loss with
  | .ok (e, _) => e.loss.value
  | .error _ => 0.0

/-- The bound below the loss that needs no scan; negative infinity where there is none. -/
def boundAt (c : Checker) (levels : List Nat) : Float :=
  match c.metric.lowerBound levels with
  | .ok (some bound) => bound.value
  | _ => Binary64.infinity true

theorem Agrees.anonymousAt {a b : Checker} (h : a.Agrees b) (levels : List Nat) :
    a.anonymousAt levels = b.anonymousAt levels := by
  simp only [Checker.anonymousAt, h.fullScan]

theorem Agrees.lossAt {a b : Checker} (h : a.Agrees b) (levels : List Nat) :
    a.lossAt levels = b.lossAt levels := by
  simp only [Checker.lossAt, h.fullScan]

theorem Agrees.boundAt {a b : Checker} (h : a.Agrees b) (levels : List Nat) :
    a.boundAt levels = b.boundAt levels := by
  simp only [Checker.boundAt, h.metric]

/-- Every scan of all records gives the answers, whatever it is asked besides. -/
theorem fullScan_answers {c : Checker} {levels : List Nat} {objective : Objective}
    {e : Evaluation} {g : Grouping} (h : c.fullScan levels objective = .ok (e, g)) :
    e.anonymous = c.anonymousAt levels ∧ e.loss.value = c.lossAt levels := by
  rw [fullScan, evaluate_eq] at h
  obtain ⟨⟨anonymous, judged⟩, hanalyze, h⟩ := bind_eq_ok.mp h
  obtain ⟨measured, hmeasured, h⟩ := bind_eq_ok.mp h
  obtain ⟨bound, hbound, h⟩ := bind_eq_ok.mp h
  obtain ⟨score, -, h⟩ := map_eq_ok.mp h
  cases h
  have hloss : c.fullScan levels .loss =
      .ok (⟨anonymous, measured.loss, bound, none, judged.size, .full⟩, judged) := by
    rw [fullScan, evaluate_eq, hanalyze, ok_bind, hmeasured, ok_bind, hbound, ok_bind]
    rfl
  simp only [anonymousAt, lossAt, hloss, and_self]

theorem exists_lossAt {c : Checker} {levels : List Nat} (hl : c.dataset.Admits levels)
    (hd : c.dataset.WellFormed) (hc : c.Ready) : ∃ judged measured,
      judged.unjudged = c.grouping levels ∧ c.metric.loss levels judged = .ok measured ∧
        c.lossAt levels = measured.loss.value := by
  obtain ⟨e, judged, hscan⟩ := fullScan_ok hl hd hc
  obtain ⟨hanalyze, measured, hmeasured, hloss, -, -⟩ := evaluate_ok hscan
  refine ⟨judged, measured, ?_, hmeasured, ?_⟩
  · rw [Grouping.analyze_unjudged hanalyze]
    exact Grouping.unjudged_ofContributions _ _
  · rw [← hloss, (fullScan_answers hscan).2]

end Checker
end Recoding
