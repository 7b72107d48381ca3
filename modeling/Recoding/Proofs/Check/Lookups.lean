import Recoding.Proofs.Check.Analyses
import Recoding.Proofs.Check.Capable
import Recoding.Proofs.Check.Released
import Recoding.Proofs.Grouping.Lookups
import Recoding.Proofs.Lattice.Nodes
import Recoding.Proofs.Preparation
import Recoding.Proofs.Sample

/-!
# No lookup misses

Checks and releases once more, as strict ones that keep the last grouping in a table and fail as
soon as they look up anything that does not exist. For an accepted dataset they never fail that
way, whatever is asked in whatever order, and they answer as the checker does.
-/

namespace Recoding

/-! ## Analyses -/

namespace ClassTable

/-- Judges the classes in a table, if no lookup misses. Slots are filled in the order of the
classes, so the first class that is rejected is in the slot of the same place. -/
def strictAnalyze (t : ClassTable) (levels : List Nat) (criteria : List Criterion) :
    Except Failure (Bool × ClassTable) := do
  let classes ← Failure.found t.strictClasses
  match ← firstRejection levels classes criteria with
  | none => return (true, t.passAll)
  | some place =>
    let t ← Failure.found (t.passAll.strictModify place fun e => { e with passed := false })
    return (false, t)

namespace Linked
variable {t : ClassTable} {hash : List Nat → UInt64} (h : t.Linked hash)
include h

theorem strictAnalyze_eq (levels : List Nat) (criteria : List Criterion) :
    SameOutcome (fun a b => a.1 = b.1 ∧ a.2.Linked hash ∧ a.2.grouping = b.2)
      (t.strictAnalyze levels criteria) (t.grouping.analyze levels criteria) := by
  unfold strictAnalyze Grouping.analyze
  rw [h.strictClasses_eq, Failure.found, ok_bind]
  refine SameOutcome.bind (Q := Eq) (.of_eq fun _ _ => rfl) fun place own hplace _ hsame => ?_
  subst hsame
  cases place with
  | none => exact .ok ⟨rfl, h.passAll, congrArg (Grouping.mk t.tracks) h.classes_passAll⟩
  | some place =>
    have hlt : place < t.passAll.slots.size := by
      have hlt := firstRejection_lt hplace
      rwa [h.classes_eq, length_entries, ← Array.size_map] at hlt
    have hlinked : (t.passAll.modify place fun e => { e with passed := false }).Linked hash :=
      h.passAll.modify place fun _ => rfl
    dsimp only
    rw [strictModify_eq hlt, Failure.found, ok_bind]
    refine .ok ⟨rfl, hlinked, congrArg (Grouping.mk t.tracks) ?_⟩
    rw [hlinked.classes_eq, entries_modify, ← h.passAll.classes_eq, h.classes_passAll]
    rfl

end Linked
end ClassTable

/-! ## Evaluations -/

namespace Checker

/-- Measures, bounds and scores a judged grouping. -/
def measure (c : Checker) (levels : List Nat) (judged : Bool × Grouping) (kind : ScanKind)
    (objective : Objective) : Except Failure Evaluation :=
  c.metric.loss levels judged.2 >>= fun measured =>
    c.boundOf levels measured >>= fun bound =>
      (c.scoreOf levels judged.2 objective).map fun score =>
        ⟨judged.1, measured.loss, bound, score, judged.2.size, kind⟩

theorem evaluate_eq_measure (c : Checker) (levels : List Nat) (g : Grouping) (kind : ScanKind)
    (objective : Objective) : c.evaluate levels g kind objective =
      g.analyze levels c.criteria >>= fun judged =>
        (c.measure levels judged kind objective).map (·, judged.2) := by
  rw [evaluate_eq]
  refine bind_congr fun judged => ?_
  unfold measure
  rw [map_bind_ok]
  refine bind_congr fun measured => ?_
  rw [map_bind_ok]
  refine bind_congr fun bound => ?_
  cases c.scoreOf levels judged.2 objective <;> rfl

/-- Evaluates the grouping in a table, if no lookup misses. -/
def strictEvaluate (c : Checker) (levels : List Nat) (t : ClassTable) (kind : ScanKind)
    (objective : Objective) : Except Failure ((Evaluation × Grouping) × ClassTable) :=
  t.strictAnalyze levels c.criteria >>= fun judged =>
    Failure.found judged.2.strictClasses >>= fun classes =>
      let g : Grouping := ⟨judged.2.tracks, classes⟩
      (c.measure levels (judged.1, g) kind objective).map fun e => ((e, g), judged.2)

/-- Groups the dataset into a table and evaluates it, if no lookup misses. -/
def strictRun (c : Checker) (hash : List Nat → UInt64) (kept : Option ClassTable)
    (levels : List Nat) (plan : ScanPlan) (objective : Objective) :
    Except Failure ((Evaluation × Grouping) × ClassTable) :=
  Failure.found (c.dataset.strictTable? hash levels plan.source kept c.tracks c.workers
    c.minRecords) >>= fun t => c.strictEvaluate levels t plan.kind objective

theorem strictEvaluate_eq (c : Checker) (levels : List Nat) {t : ClassTable}
    {hash : List Nat → UInt64} (h : t.Linked hash) (kind : ScanKind) (objective : Objective) :
    SameOutcome (fun a b => a.1 = b ∧ a.2.Linked hash ∧ a.2.grouping = b.2)
      (c.strictEvaluate levels t kind objective)
      (c.evaluate levels t.grouping kind objective) := by
  rw [evaluate_eq_measure]
  refine (h.strictAnalyze_eq levels c.criteria).bind ?_
  rintro ⟨anonymous, judged⟩ ⟨own, g⟩ - - ⟨rfl, hlinked, rfl⟩
  rw [ClassTable.Linked.strictClasses_eq hlinked, Failure.found, ok_bind]
  refine SameOutcome.map (Q := Eq) (.of_eq fun _ _ => rfl) ?_
  rintro e _ rfl
  exact ⟨rfl, hlinked, rfl⟩

/-! ## What never misses -/

section
variable {c : Checker} {levels : List Nat} (hl : c.dataset.Admits levels) (hc : c.Ready)
include hl hc

/-- A score may not exist, but no lookup misses on the way to it. -/
theorem score_ne_outOfRange {g : Grouping} (hg : g.Wide c.dataset.hierarchies.length) :
    c.metric.score levels g ≠ .error .outOfRange := by
  have hnegated : ∀ what x, Metric.negatedLoss what x ≠ .error .outOfRange := by
    intro what x
    unfold Metric.negatedLoss
    cases Binary64.toRat? x <;> nofun
  obtain ⟨raw, hraw⟩ := hc.metric
  cases raw with
  | height aggregate =>
    rw [← Except.ok.inj hraw]
    cases aggregate with
    | geometricMean => exact hnegated _ _
    | _ => nofun
  | normalizedEntropy aggregate order tables =>
    obtain ⟨losses, -, hraw⟩ := bind_eq_ok.mp hraw
    rw [← Except.ok.inj hraw]
    nofun
  | discernability records =>
    rw [← Except.ok.inj hraw]
    nofun
  | entropyDomainShare tables =>
    rw [← Except.ok.inj hraw]
    obtain ⟨loss, hloss⟩ := shareLoss_ok hl hg (DomainShare.leafProduct c.dataset.shares)
    simp only [Metric.score, Metric.prepared, ok_bind, hloss]
    exact hnegated _ _

/-- What a class with one code per hierarchy contributes can always be measured. -/
theorem classLoss_ok {e : EquivalenceClass} (he : e.key.length = c.dataset.hierarchies.length) :
    ∃ loss, c.metric.classLoss levels e = .ok loss := by
  obtain ⟨raw, hraw⟩ := hc.metric
  cases raw with
  | height aggregate =>
    rw [← Except.ok.inj hraw]
    exact ⟨_, rfl⟩
  | normalizedEntropy aggregate order tables =>
    obtain ⟨losses, -, hraw⟩ := bind_eq_ok.mp hraw
    rw [← Except.ok.inj hraw]
    have hvalues : ∃ values, (c.dataset.shares.zipIdx.mapM fun p =>
        Metric.codeLoss? p.1 e.key[p.2]? levels[p.2]?) = some values := by
      refine mapM_some fun p hp => ?_
      have hlevels : p.2 < levels.length := shares_length hl ▸ (List.mem_zipIdx' hp).1
      have hkey : p.2 < e.key.length := by rwa [he, ← hl.length_eq]
      rw [List.getElem?_eq_getElem hlevels, List.getElem?_eq_getElem hkey]
      unfold Metric.codeLoss?
      split_ifs <;> exact ⟨_, rfl⟩
    obtain ⟨values, hvalues⟩ := hvalues
    refine ⟨.ofValues aggregate values, ?_⟩
    simp only [Metric.classLoss, Metric.prepared, ok_bind, hvalues, Failure.found, pure_eq_ok]
  | discernability records =>
    rw [← Except.ok.inj hraw]
    exact ⟨_, rfl⟩
  | entropyDomainShare tables =>
    rw [← Except.ok.inj hraw]
    obtain ⟨loss, hloss⟩ := class_loss hl he (DomainShare.leafProduct c.dataset.shares)
    exact ⟨.scalar loss, by
      simp only [Metric.classLoss, Metric.prepared, ok_bind, hloss, Failure.found, pure_eq_ok]⟩

theorem evaluate_ne_outOfRange {g : Grouping} (hg : g.Wide c.dataset.hierarchies.length)
    (kind : ScanKind) (objective : Objective) :
    c.evaluate levels g kind objective ≠ .error .outOfRange := by
  obtain ⟨e, judged, hjudged, hevaluate⟩ := evaluate_scored hl hc hg kind objective
  have hscore := score_ne_outOfRange hl hc (hg.unjudged hjudged)
  rw [hevaluate]
  intro hmissed
  have hmissed := map_eq_error.mp hmissed
  cases objective with
  | loss => cases hmissed
  | score => exact hscore (map_eq_error.mp hmissed)

end

/-- Running a plan misses nothing, and it evaluates what it would evaluate without a table. -/
theorem Capable.strictRun_eq {c : Checker} {l : Lattice} (h : c.Capable l) {levels : List Nat}
    (hl : c.dataset.Admits levels) {plan : ScanPlan}
    (hplan : plan.source.Grounded c.dataset.records) (hash : List Nat → UInt64)
    {kept : Option ClassTable}
    (hkept : ∀ g, plan.source = .classes g → ∃ t ∈ kept, t.Linked hash ∧ t.grouping = g)
    (objective : Objective) :
    c.run levels plan objective ≠ .error .outOfRange ∧
      SameOutcome (fun a b => a.1 = b ∧ a.2.Linked hash ∧ a.2.grouping = b.2 ∧
          b.2.Grounded c.dataset.records ∧ b.2.Wide c.dataset.hierarchies.length)
        (c.strictRun hash kept levels plan objective) (c.run levels plan objective) := by
  obtain ⟨t, htable, hlinked, hgroup, hgrounded, hwide⟩ :=
    h.wellFormed.exists_strictTable hl hash hplan hkept c.tracks c.workers c.minRecords
  have hstrict : c.strictRun hash kept levels plan objective =
      c.strictEvaluate levels t plan.kind objective := by
    rw [strictRun, htable]
    rfl
  have hrun : c.run levels plan objective =
      c.evaluate levels t.grouping plan.kind objective := by
    rw [run, group?, hgroup]
    rfl
  rw [hstrict, hrun]
  refine ⟨evaluate_ne_outOfRange hl h.ready hwide plan.kind objective,
    (c.strictEvaluate_eq levels hlinked plan.kind objective).mono ?_⟩
  rintro ⟨_, judged⟩ ⟨e, g⟩ - hevaluate ⟨rfl, hjudged, hown⟩
  have hunjudged := Grouping.analyze_unjudged (evaluate_ok hevaluate).1
  exact ⟨rfl, hjudged, hown, hgrounded.unjudged hunjudged, hwide.unjudged hunjudged⟩

end Checker

theorem Lattice.levelsOf_ne_outOfRange (l : Lattice) (id : Nat) :
    l.levelsOf id ≠ .error .outOfRange := by
  unfold levelsOf
  split_ifs <;> simp

/-! ## Preparations -/

theorem Criterion.prepare_ne_outOfRange (c : Criterion) (d : Dataset) :
    c.prepare d ≠ .error .outOfRange := by
  cases c with
  | inclusion size => simp [prepare]
  | kAnonymity k =>
    rw [prepare]
    split_ifs <;> simp
  | distinctDiversity l =>
    rw [prepare]
    split_ifs <;> simp
  | profitability attacker payoffs shares floor => simp [prepare]

/-- No lookup misses when the criteria and the metric get to know the dataset. -/
theorem Checker.create_ne_outOfRange {d : Dataset} (hd : d.WellFormed)
    (criteria : List Criterion) (metric : Metric) (settings : CheckerSettings) :
    create d criteria metric settings ≠ .error .outOfRange := by
  obtain ⟨prepared, hprepared⟩ := Metric.exists_prepare hd metric
  intro h
  unfold create at h
  cases hcriteria : criteria.mapM (·.prepare d) with
  | error failure =>
    rw [hcriteria] at h
    cases h
    obtain ⟨c, -, hc⟩ := exists_of_mapM_error hcriteria
    exact c.prepare_ne_outOfRange d hc
  | ok cs =>
    rw [hcriteria, ok_bind, hprepared] at h
    cases h

/-- Everything that can be looked up by the number of a record, a value or a level is there. -/
structure Dataset.Complete (d : Dataset) : Prop where
  codes : ∀ h ∈ d.hierarchies, ∀ value < h.codes.size, ∀ level < h.height,
    ∃ code, h.generalize? value level = some code
  cells : ∀ row < d.records, ∀ column h, d.hierarchies[column]? = some h →
    column < d.table.columns ∧ ∃ value, d.table.get? row column = some value ∧
      value < h.codes.size
  keys : ∀ row < d.records, ∀ levels, d.Admits levels →
    ∃ key, d.generalize? row levels = some key ∧ key.length = d.table.columns
  subset : ∀ row < d.records, ∃ inside, d.inSubset? row = some inside
  sensitive : ∀ row < d.records, ∃ value, d.sensitiveOf? row = some value
  aggregated : ∀ m ∈ d.microaggregation, ∀ row < d.records, ∀ column < m.functions.length,
    ∃ value, m.table.get? row column = some value

theorem Dataset.WellFormed.complete {d : Dataset} (hd : d.WellFormed) : d.Complete where
  codes h hh value hvalue level hlevel := (hd.coherent h hh).exists_code hvalue hlevel
  cells row hrow column h hh :=
    ⟨hd.width ▸ (List.getElem?_eq_some_iff.mp hh).1, hd.covered row hrow column h hh⟩
  keys row hrow levels hl :=
    ⟨_, hd.generalize_eq hrow hl, (hd.key_length hrow hl).trans hd.width⟩
  subset row hrow := ⟨_, hd.inSubset_eq hrow⟩
  sensitive row hrow := ⟨_, hd.sensitiveOf_eq hrow⟩
  aggregated m hm row hrow column hcolumn := by
    obtain ⟨hrows, hfunctions⟩ := hd.aggregated_rows m hm
    exact m.table.exists_cell (hrows ▸ hrow) (hfunctions ▸ hcolumn)

/-! ## Sessions -/

/-- The aggregated attributes, if all values of so many records exist. -/
def Microaggregation.strictCollapse? (m : Microaggregation) (records : Nat)
    (keys : List (List Nat)) : Option CodeTable := do
  let _ ← (List.range records).mapM fun row =>
    (List.range m.functions.length).mapM fun column => m.table.get? row column
  m.collapse? keys

/-- Generalizes the whole dataset, if no lookup misses. -/
def Checker.strictRelease (c : Checker) (hash : List Nat → UInt64) (levels : List Nat) :
    Except Failure Release := do
  let keys ← Failure.found (c.dataset.generalizedRecords? levels)
  let ((evaluation, _), _) ← c.strictRun hash none levels ScanPlan.records .loss
  let microaggregated ← match c.dataset.microaggregation with
    | none => .ok none
    | some m => (Failure.found (m.strictCollapse? c.dataset.records keys)).map some
  return ⟨c.dataset.tableOf keys, microaggregated, evaluation⟩

/-- A checker and a space, with the table that the last grouping is kept in. -/
structure Session where
  checker : Checker
  space : SolutionSpace
  kept : Option ClassTable

namespace Session

inductive Question where
  | check (id : Nat) (fromRecords : Bool) (objective : Objective)
  | release (id : Nat)

inductive Answer where
  | evaluation (e : Evaluation)
  | release (r : Release)

def new (c : Checker) (l : Lattice) : Session := ⟨c, .ofLattice l, none⟩

def check (s : Session) (hash : List Nat → UInt64) (id : Nat) (fromRecords : Bool)
    (objective : Objective) : Except Failure Evaluation × Session :=
  match s.space.lattice.levelsOf id with
  | .error failure => (.error failure, s)
  | .ok levels =>
    let plan := (s.checker.plan levels fromRecords).1
    let c := s.checker.prepared levels fromRecords
    match c.strictRun hash s.kept levels plan objective with
    | .error failure => (.error failure, { s with checker := c })
    | .ok ((evaluation, g), t) =>
      match s.space.record id evaluation with
      | .error failure => (.error failure, { s with checker := c })
      | .ok space => (.ok evaluation, ⟨c.keep id levels g evaluation plan, space, some t⟩)

def respond (s : Session) (hash : List Nat → UInt64) : Question → Except Failure Answer × Session
  | .check id fromRecords objective =>
    let (answer, after) := s.check hash id fromRecords objective
    (answer.map .evaluation, after)
  | .release id =>
    ((s.space.lattice.levelsOf id >>= s.checker.strictRelease hash).map .release, s)

def respondAll (s : Session) (hash : List Nat → UInt64) :
    List Question → List (Except Failure Answer) × Session
  | [] => ([], s)
  | question :: questions =>
    let answered := s.respond hash question
    let rest := answered.2.respondAll hash questions
    (answered.1 :: rest.1, rest.2)

end Session

namespace Checker
open Session (Question Answer)

/-- What a checker answers to a question, with the checker and the space after it. -/
def respond (c : Checker) (space : SolutionSpace) :
    Question → Except Failure Answer × Checker × SolutionSpace
  | .check id fromRecords objective =>
    let (answer, after) := c.check space id fromRecords objective
    (answer.map .evaluation, after)
  | .release id => ((space.lattice.levelsOf id >>= c.release).map .release, c, space)

/-- What a checker answers to questions one after another. -/
def respondAll (c : Checker) (space : SolutionSpace) :
    List Question → List (Except Failure Answer) × Checker × SolutionSpace
  | [] => ([], c, space)
  | question :: questions =>
    let answered := c.respond space question
    let rest := answered.2.1.respondAll answered.2.2 questions
    (answered.1 :: rest.1, rest.2)

end Checker

/-! ## Answers do not miss -/

namespace Microaggregation

theorem strictCollapse?_eq {d : Dataset} (hd : d.WellFormed) {m : Microaggregation}
    (hm : m ∈ d.microaggregation) (keys : List (List Nat)) :
    m.strictCollapse? d.records keys = m.collapse? keys := by
  have hcells : ∃ cells, ((List.range d.records).mapM fun row =>
      (List.range m.functions.length).mapM fun column => m.table.get? row column) = some cells :=
    mapM_some fun row hrow => mapM_some fun column hcolumn =>
      hd.complete.aggregated m hm row (List.mem_range.mp hrow) column (List.mem_range.mp hcolumn)
  obtain ⟨cells, hcells⟩ := hcells
  rw [strictCollapse?, hcells]
  rfl

end Microaggregation

theorem Checker.Capable.strictRelease_eq {c : Checker} {l : Lattice} (h : c.Capable l)
    {levels : List Nat} (hl : c.dataset.Admits levels) (hash : List Nat → UInt64) :
    c.strictRelease hash levels = c.release levels ∧
      c.release levels ≠ .error .outOfRange := by
  constructor
  · have hplan : ScanPlan.records.source.Grounded c.dataset.records := trivial
    have hkept : ∀ g, ScanPlan.records.source = .classes g →
        ∃ t ∈ (none : Option ClassTable), t.Linked hash ∧ t.grouping = g := by
      intro g hg
      cases hg
    obtain ⟨-, hrun⟩ := h.strictRun_eq hl hplan hash hkept .loss
    unfold strictRelease release
    refine bind_congr fun keys => ?_
    generalize c.strictRun hash none levels ScanPlan.records .loss = strict at hrun ⊢
    generalize c.run levels ScanPlan.records .loss = plain at hrun ⊢
    cases hrun with
    | error failure => rfl
    | @ok a b related =>
      obtain ⟨⟨e, g⟩, t⟩ := a
      obtain ⟨rfl, -⟩ := related
      cases hm : c.dataset.microaggregation with
      | none => rfl
      | some m =>
        rw [ok_bind, ok_bind]
        dsimp only
        rw [Microaggregation.strictCollapse?_eq h.wellFormed hm]
  · obtain ⟨release, hrelease, -⟩ := exists_release h.wellFormed h.ready hl
    rw [hrelease]
    nofun

namespace Session
open Checker (check_unknown check_eq exists_record)

/-- Whatever is kept stands for existing records, and the table holds the last grouping. -/
structure Sound (s : Session) (hash : List Nat → UInt64) (l : Lattice) : Prop where
  capable : s.checker.Capable l
  lattice : s.space.lattice = l
  kept : ∀ last ∈ s.checker.last, s.checker.dataset.Admits last.1 ∧
    last.2.Wide s.checker.dataset.hierarchies.length ∧
    ∃ t ∈ s.kept, t.Linked hash ∧ t.grouping = last.2

/-- No lookup has missed, the answer is the same as without a table, and the session is sound. -/
structure Agrees {α : Type} (hash : List Nat → UInt64) (l : Lattice)
    (strict : Except Failure α × Session) (plain : Except Failure α × Checker × SolutionSpace) :
    Prop where
  answer : strict.1 = plain.1
  inRange : strict.1 ≠ .error .outOfRange
  checker : strict.2.checker = plain.2.1
  space : strict.2.space = plain.2.2
  sound : strict.2.Sound hash l

theorem Agrees.map {α β : Type} {hash : List Nat → UInt64} {l : Lattice}
    {strict : Except Failure α × Session} {plain : Except Failure α × Checker × SolutionSpace}
    (h : Agrees hash l strict plain) (f : α → β) :
    Agrees hash l (strict.1.map f, strict.2) (plain.1.map f, plain.2) where
  answer := congrArg (Except.map f) h.answer
  inRange heq := h.inRange (map_eq_error.mp heq)
  checker := h.checker
  space := h.space
  sound := h.sound

section
variable {s : Session} {hash : List Nat → UInt64} {l : Lattice} (h : s.Sound hash l)
include h

theorem Sound.prepared (levels : List Nat) (fromRecords : Bool) :
    ({ s with checker := s.checker.prepared levels fromRecords } : Session).Sound hash l where
  capable := h.capable.prepared levels fromRecords
  lattice := h.lattice
  kept last hlast := by
    rw [Checker.last_prepared] at hlast
    rw [(s.checker.precedes_prepared levels fromRecords).agrees.dataset]
    exact h.kept last hlast

theorem Sound.source {levels : List Nat} {fromRecords : Bool} {g : Grouping}
    (hg : (s.checker.plan levels fromRecords).1.source = .classes g) :
    ∃ t ∈ s.kept, t.Linked hash ∧ t.grouping = g := by
  rcases s.checker.plan_source levels fromRecords with
    hsource | ⟨last, hlast, -, hsource⟩ | ⟨found, -, hsource⟩
  · cases hsource.symm.trans hg
  · cases hsource.symm.trans hg
    exact (h.kept last hlast).2.2
  · cases hsource.symm.trans hg

theorem Sound.check (id : Nat) (fromRecords : Bool) (objective : Objective) :
    Agrees hash l (s.check hash id fromRecords objective)
      (s.checker.check s.space id fromRecords objective) := by
  cases hlevels : s.space.lattice.levelsOf id with
  | error failure =>
    have hunknown := s.space.lattice.levelsOf_ne_outOfRange id
    rw [hlevels] at hunknown
    rw [check_unknown hlevels, Session.check, hlevels]
    exact ⟨rfl, by simpa using hunknown, rfl, rfl, h⟩
  | ok levels =>
    have hprepared := h.prepared levels fromRecords
    have hagrees := (s.checker.precedes_prepared levels fromRecords).agrees
    have hsource := hagrees.dataset ▸ h.capable.source levels fromRecords
    have hadmits := hprepared.capable.covers.admits (h.lattice ▸ hlevels)
    obtain ⟨hinRange, hrun⟩ := hprepared.capable.strictRun_eq hadmits hsource hash
      (fun _ hg => h.source hg) objective
    rw [check_eq hlevels, Session.check, hlevels]
    dsimp only
    generalize (s.checker.prepared levels fromRecords).strictRun hash s.kept levels
      (s.checker.plan levels fromRecords).1 objective = strict at hrun ⊢
    generalize (s.checker.prepared levels fromRecords).run levels
      (s.checker.plan levels fromRecords).1 objective = plain at hrun hinRange ⊢
    cases hrun with
    | error failure => exact ⟨rfl, by simpa using hinRange, rfl, rfl, hprepared⟩
    | @ok a b related =>
      obtain ⟨⟨e, g⟩, t⟩ := a
      obtain ⟨rfl, hlinked, hgrouping, hgrounded, hwide⟩ := related
      obtain ⟨recorded, hrecorded⟩ := exists_record hlevels e
      dsimp only
      rw [hrecorded]
      refine ⟨rfl, nofun, rfl, rfl, ?_, ?_, ?_⟩
      · exact hprepared.capable.keep hgrounded id levels e _
      · exact (SolutionSpace.record_frame hrecorded).1.trans h.lattice
      · intro last hlast
        cases hlast
        exact ⟨hadmits, hwide, t, rfl, hlinked, hgrouping⟩

theorem Sound.release (id : Nat) : Agrees hash l
    (s.space.lattice.levelsOf id >>= s.checker.strictRelease hash, s)
    (s.space.lattice.levelsOf id >>= s.checker.release, s.checker, s.space) := by
  cases hlevels : s.space.lattice.levelsOf id with
  | error failure =>
    have hunknown := s.space.lattice.levelsOf_ne_outOfRange id
    rw [hlevels] at hunknown
    exact ⟨rfl, by simpa using hunknown, rfl, rfl, h⟩
  | ok levels =>
    have hadmits := h.capable.covers.admits (h.lattice ▸ hlevels)
    obtain ⟨hsame, hinRange⟩ := h.capable.strictRelease_eq hadmits hash
    rw [← hsame] at hinRange
    exact ⟨hsame, hinRange, rfl, rfl, h⟩

theorem Sound.respond (question : Question) :
    Agrees hash l (s.respond hash question) (s.checker.respond s.space question) := by
  cases question with
  | check id fromRecords objective => exact (h.check id fromRecords objective).map Answer.evaluation
  | release id => exact (h.release id).map Answer.release

theorem Sound.respondAll (questions : List Question) :
    (∀ answer ∈ (s.respondAll hash questions).1, answer ≠ .error .outOfRange) ∧
      s.checker.respondAll s.space questions = ((s.respondAll hash questions).1,
        (s.respondAll hash questions).2.checker, (s.respondAll hash questions).2.space) ∧
      (s.respondAll hash questions).2.Sound hash l := by
  induction questions generalizing s with
  | nil => exact ⟨fun _ h => absurd h List.not_mem_nil, rfl, h⟩
  | cons question questions ih =>
    have hnext := h.respond question
    obtain ⟨hanswers, hsame, hsound⟩ := ih hnext.sound
    refine ⟨List.forall_mem_cons.mpr ⟨hnext.inRange, hanswers⟩, ?_, hsound⟩
    rw [Checker.respondAll, ← hnext.answer, ← hnext.checker, ← hnext.space, hsame]
    rfl

end

/-! ## What is left behind -/

/-- What is kept for later can be read: every snapshot, and the table along its links. All of it
stands for existing records, and the loss of every single class can be looked up. -/
structure Readable (s : Session) : Prop where
  snapshots : ∀ entry ∈ s.checker.history.held, ∃ kept, entry.2.records? = some kept ∧
    ∀ r ∈ kept, r.representative < s.checker.dataset.records
  last : ∀ last ∈ s.checker.last, ∃ t ∈ s.kept, t.strictClasses = some last.2.classes ∧
    ∀ e ∈ last.2.classes, e.representative < s.checker.dataset.records ∧
      ∃ loss, s.checker.metric.classLoss last.1 e = .ok loss

theorem Sound.readable {s : Session} {hash : List Nat → UInt64} {l : Lattice}
    (h : s.Sound hash l) : s.Readable where
  snapshots entry hentry := by
    obtain ⟨kept, hkept, hrep, -⟩ := h.capable.held entry hentry
    exact ⟨kept, hkept, hrep⟩
  last last hlast := by
    obtain ⟨hadmits, hwide, t, ht, hlinked, hgrouping⟩ := h.kept last hlast
    refine ⟨t, ht, ?_, fun e he => ⟨(h.capable.last last hlast).representative e he, ?_⟩⟩
    · rw [hlinked.strictClasses_eq, ← hgrouping]
      rfl
    · exact Checker.classLoss_ok hadmits h.capable.ready (hwide e he)

theorem sound_new {d : Dataset} (hd : d.WellFormed) {criteria : List Criterion}
    {metric : Metric} {settings : CheckerSettings} {c : Checker}
    (hc : Checker.create d criteria metric settings = .ok c) {l : Lattice} (hl : d.Covers l)
    (hash : List Nat → UInt64) : (new c l).Sound hash l := by
  refine ⟨Checker.capable_create hd hc hl, rfl, fun last hlast => ?_⟩
  have hnone : (new c l).checker.last = none := by
    obtain ⟨prepared, -, hc⟩ := bind_eq_ok.mp hc
    obtain ⟨measured, -, hc⟩ := bind_eq_ok.mp hc
    cases hc
    rfl
  rw [hnone] at hlast
  cases hlast

end Session
end Recoding
