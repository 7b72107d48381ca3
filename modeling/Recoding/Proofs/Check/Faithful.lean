import Recoding.Check.Checker
import Recoding.Proofs.Grouping.Snapshots
import Recoding.Proofs.Lattice.Roots
import Recoding.Proofs.Outcome

/-!
# Faithful checkers

A checker is faithful if everything it keeps for later checks, its snapshots and its last
grouping, describes the groupings of all records at their own levels. Then a check evaluates
what a scan of all records would have evaluated, whatever it has regrouped, and the checker
stays faithful.
-/

namespace Recoding

theorem Grouping.analyze_unjudged {g judged : Grouping} {levels : List Nat}
    {criteria : List Criterion} {anonymous : Bool}
    (h : g.analyze levels criteria = .ok (anonymous, judged)) :
    judged.unjudged = g.unjudged := by
  have hpassed : (g.classes.map fun e => { e with passed := true }).map
      EquivalenceClass.unjudged = g.classes.map EquivalenceClass.unjudged := by
    rw [List.map_map]
    rfl
  unfold analyze at h
  cases hfirst : firstRejection levels g.classes criteria with
  | error e =>
    rw [hfirst] at h
    cases h
  | ok place =>
    rw [hfirst] at h
    cases place with
    | none =>
      cases h
      exact congrArg (Grouping.mk g.tracks) hpassed
    | some place =>
      cases h
      refine congrArg (Grouping.mk g.tracks) (Eq.trans ?_ hpassed)
      refine List.ext_getElem? fun i => ?_
      rw [List.getElem?_map, List.getElem?_map, List.getElem?_modify]
      cases (g.classes.map fun e => ({ e with passed := true } : EquivalenceClass))[i]? with
      | none => split_ifs <;> rfl
      | some e => split_ifs <;> rfl

theorem Snapshot.usableFor_iff {s : Snapshot} {levels : List Nat} :
    s.usableFor levels = true ↔ List.Forall₂ (· ≤ ·) s.levels levels := by
  unfold usableFor
  rw [Bool.and_eq_true, beq_iff_eq]
  constructor
  · rintro ⟨hlength, hle⟩
    exact (levelsLe_iff hlength).mp hle
  · intro h
    exact ⟨h.length_eq, (levelsLe_iff h.length_eq).mpr h⟩

/-- All transformations of the lattice can be generalized to. -/
def Dataset.Covers (d : Dataset) (l : Lattice) : Prop := d.Admits l.maxLevels

theorem Dataset.Covers.admits {d : Dataset} {l : Lattice} (h : d.Covers l) {id : Nat}
    {levels : List Nat} (hl : l.levelsOf id = .ok levels) : d.Admits levels :=
  Dataset.Admits.of_le h (Lattice.levelsOf_within hl).le_high

theorem Dataset.WellFormed.covers {d : Dataset} (hd : d.WellFormed) {l : Lattice}
    (h : Lattice.ofBounds d.minLevels d.maxLevels = .ok l) : d.Covers l := by
  unfold Dataset.Covers
  rw [(Lattice.ofBounds_ok h).2]
  exact hd.admits_max

theorem History.cheapest?_mem {entries : List (Nat × Snapshot)} {found : Nat × Snapshot}
    (h : cheapest? entries = some found) : found ∈ entries := by
  induction entries generalizing found with
  | nil => cases h
  | cons first rest ih =>
    simp only [cheapest?] at h
    cases hrest : cheapest? rest with
    | none =>
      rw [hrest] at h
      cases h
      exact List.mem_cons_self
    | some other =>
      rw [hrest] at h
      dsimp only at h
      split_ifs at h with hcheaper
      · cases h
        exact List.mem_cons_of_mem _ (ih hrest)
      · cases h
        exact List.mem_cons_self

theorem History.closest?_spec {h : History} {levels : List Nat} {found : Nat × Snapshot}
    (hf : h.closest? levels = some found) :
    found ∈ h.held ∧ List.Forall₂ (· ≤ ·) found.2.levels levels := by
  obtain ⟨hmem, husable⟩ := List.mem_filter.mp (cheapest?_mem hf)
  exact ⟨hmem, Snapshot.usableFor_iff.mp husable⟩

theorem Snapshot.ofGrouping_unjudged (levels : List Nat) (g : Grouping) (d : Dictionary) :
    ofGrouping levels g.unjudged d = ofGrouping levels g d := by
  have hwords : wordsOfAll g.tracks (g.classes.map EquivalenceClass.unjudged) d =
      wordsOfAll g.tracks g.classes d := by
    induction g.classes generalizing d with
    | nil => rfl
    | cons e rest ih =>
      simp only [List.map_cons, wordsOfAll, ih]
      rfl
  unfold ofGrouping Grouping.unjudged
  rw [hwords]

/-- Storing changes nothing, or appends the snapshot to what is left of the old ones. -/
theorem History.store_eq (h : History) (id : Nat) (levels : List Nat) (g : Grouping)
    (loss : Loss) (sourceSize : Option Nat) :
    (h.store id levels g loss sourceSize).2 = h ∨
      ∃ dropped, (h.store id levels g loss sourceSize).2.held =
          h.held.drop dropped ++ [(id, (Snapshot.ofGrouping levels g h.dictionary).1)] ∧
        (h.store id levels g loss sourceSize).2.dictionary =
          (Snapshot.ofGrouping levels g h.dictionary).2 := by
  unfold store
  split_ifs
  · exact Or.inr ⟨_, rfl, rfl⟩
  · exact Or.inl rfl

theorem History.extends_store (h : History) (id : Nat) (levels : List Nat) (g : Grouping)
    (loss : Loss) (sourceSize : Option Nat) :
    h.dictionary.Extends (h.store id levels g loss sourceSize).2.dictionary := by
  rcases h.store_eq id levels g loss sourceSize with hstore | ⟨_, -, hdictionary⟩
  · rw [hstore]
    exact Dictionary.Extends.refl _
  · rw [hdictionary]
    exact Snapshot.extends_wordsOfAll g.tracks g.classes h.dictionary

namespace Checker

/-- Two checkers judge the same dataset by the same criteria and metric. -/
structure Agrees (a b : Checker) : Prop where
  dataset : a.dataset = b.dataset
  criteria : a.criteria = b.criteria
  metric : a.metric = b.metric
  tracks : a.tracks = b.tracks

theorem Agrees.refl (c : Checker) : c.Agrees c := ⟨rfl, rfl, rfl, rfl⟩

theorem Agrees.symm {a b : Checker} (h : a.Agrees b) : b.Agrees a :=
  ⟨h.dataset.symm, h.criteria.symm, h.metric.symm, h.tracks.symm⟩

theorem Agrees.trans {a b c : Checker} (h : a.Agrees b) (k : b.Agrees c) : a.Agrees c :=
  ⟨h.dataset.trans k.dataset, h.criteria.trans k.criteria, h.metric.trans k.metric,
    h.tracks.trans k.tracks⟩

def grouping (c : Checker) (levels : List Nat) : Grouping := c.dataset.grouping c.tracks levels

def fullScan (c : Checker) (levels : List Nat) (objective : Objective) :
    Except Failure (Evaluation × Grouping) :=
  c.evaluate levels (c.grouping levels) .full objective

theorem Agrees.grouping {a b : Checker} (h : a.Agrees b) (levels : List Nat) :
    a.grouping levels = b.grouping levels := by
  rw [Checker.grouping, Checker.grouping, h.dataset, h.tracks]

theorem Agrees.fullScan {a b : Checker} (h : a.Agrees b) (levels : List Nat)
    (objective : Objective) : a.fullScan levels objective = b.fullScan levels objective := by
  simp only [Checker.fullScan, evaluate, h.grouping, h.criteria, h.metric]

/-- The bound that is kept with a measured loss. -/
def boundOf (c : Checker) (levels : List Nat) (measured : BoundedLoss) :
    Except Failure (Option Loss) :=
  match measured.lowerBound with
  | some bound => .ok (some bound)
  | none => c.metric.lowerBound levels

/-- The score, where the objective asks for it. -/
def scoreOf (c : Checker) (levels : List Nat) (g : Grouping) :
    Objective → Except Failure (Option Rat)
  | .score => (c.metric.score levels g).map some
  | .loss => .ok none

/-- An evaluation judges a grouping, measures its loss, and bounds and scores it. -/
theorem evaluate_eq (c : Checker) (levels : List Nat) (g : Grouping) (kind : ScanKind)
    (objective : Objective) : c.evaluate levels g kind objective =
      g.analyze levels c.criteria >>= fun judged =>
        c.metric.loss levels judged.2 >>= fun measured =>
          c.boundOf levels measured >>= fun bound =>
            (c.scoreOf levels judged.2 objective).map fun score =>
              (⟨judged.1, measured.loss, bound, score, judged.2.size, kind⟩, judged.2) := by
  unfold evaluate boundOf
  refine bind_congr fun judged => bind_congr fun measured => ?_
  cases measured.lowerBound with
  | some bound =>
    cases objective with
    | loss => rfl
    | score => cases hscore : c.metric.score levels judged.2 <;> simp [scoreOf, hscore]
  | none =>
    refine bind_congr fun bound => ?_
    cases objective with
    | loss => rfl
    | score => cases hscore : c.metric.score levels judged.2 <;> simp [scoreOf, hscore]

theorem evaluate_kind (c : Checker) (levels : List Nat) (g : Grouping) (kind : ScanKind)
    (objective : Objective) : c.evaluate levels g kind objective =
      (c.evaluate levels g .full objective).map fun r => ({ r.1 with kind }, r.2) := by
  rw [evaluate_eq, evaluate_eq, map_bind_ok]
  refine bind_congr fun judged => ?_
  rw [map_bind_ok]
  refine bind_congr fun measured => ?_
  rw [map_bind_ok]
  refine bind_congr fun bound => ?_
  cases c.scoreOf levels judged.2 objective <;> rfl

theorem evaluate_ok {c : Checker} {levels : List Nat} {g judged : Grouping}
    {kind : ScanKind} {objective : Objective} {e : Evaluation}
    (h : c.evaluate levels g kind objective = .ok (e, judged)) :
    g.analyze levels c.criteria = .ok (e.anonymous, judged) ∧
      ∃ measured, c.metric.loss levels judged = .ok measured ∧ e.loss = measured.loss ∧
        c.boundOf levels measured = .ok e.lowerBound ∧ e.classes = judged.size := by
  rw [evaluate_eq] at h
  obtain ⟨⟨anonymous, result⟩, hanalyze, h⟩ := bind_eq_ok.mp h
  obtain ⟨measured, hloss, h⟩ := bind_eq_ok.mp h
  obtain ⟨bound, hbound, h⟩ := bind_eq_ok.mp h
  obtain ⟨score, -, h⟩ := map_eq_ok.mp h
  cases h
  exact ⟨hanalyze, measured, hloss, rfl, hbound, rfl⟩

/-- Everything that is kept for later checks describes groupings of all records. -/
structure Faithful (c : Checker) : Prop where
  wellFormed : c.dataset.WellFormed
  narrow : c.dataset.records < 2 ^ 32
  sound : c.history.dictionary.Sound
  held : ∀ entry ∈ c.history.held, c.dataset.Admits entry.2.levels ∧
    entry.2.Restores c.history.dictionary (c.grouping entry.2.levels).classes
  last : ∀ kept ∈ c.last, c.dataset.Admits kept.1 ∧ kept.2.unjudged = c.grouping kept.1

/-- A later state of a checker. It is faithful as long as its numbers of distributions fit
into words. -/
structure Precedes (before after : Checker) : Prop where
  agrees : after.Agrees before
  extends_dictionary : before.history.dictionary.Extends after.history.dictionary
  faithful : after.history.dictionary.size < 2 ^ 32 → before.Faithful → after.Faithful

theorem Precedes.refl (c : Checker) : c.Precedes c :=
  ⟨Agrees.refl c, Dictionary.Extends.refl _, fun _ h => h⟩

theorem Precedes.trans {a b c : Checker} (h : a.Precedes b) (k : b.Precedes c) :
    a.Precedes c where
  agrees := k.agrees.trans h.agrees
  extends_dictionary := h.extends_dictionary.trans k.extends_dictionary
  faithful hsize hfaithful := k.faithful hsize
    (h.faithful (lt_of_le_of_lt k.extends_dictionary.size_le hsize) hfaithful)

theorem Precedes.of_eq {before after : Checker} (hagrees : after.Agrees before)
    (hdictionary : after.history.dictionary = before.history.dictionary)
    (hheld : after.history.held = before.history.held) (hlast : after.last = before.last) :
    before.Precedes after where
  agrees := hagrees
  extends_dictionary := hdictionary ▸ Dictionary.Extends.refl _
  faithful _ h := by
    have hgrouping := hagrees.grouping
    refine ⟨hagrees.dataset ▸ h.wellFormed, hagrees.dataset ▸ h.narrow, hdictionary ▸ h.sound,
      ?_, ?_⟩
    · rw [hheld, hdictionary, hagrees.dataset]
      intro entry hentry
      rw [hgrouping]
      exact h.held entry hentry
    · rw [hlast, hagrees.dataset]
      intro kept hkept
      rw [hgrouping]
      exact h.last kept hkept

theorem precedes_setRetention (c : Checker) (retention : Retention) :
    c.Precedes (c.setRetention retention) :=
  .of_eq ⟨rfl, rfl, rfl, rfl⟩ rfl rfl rfl

theorem precedes_count (c : Checker) (f : Counters → Counters) : c.Precedes (c.count f) :=
  .of_eq ⟨rfl, rfl, rfl, rfl⟩ rfl rfl rfl

theorem precedes_countScan (c : Checker) (kind : ScanKind) : c.Precedes (c.countScan kind) :=
  .of_eq ⟨rfl, rfl, rfl, rfl⟩ rfl rfl rfl

theorem precedes_plan (c : Checker) (levels : List Nat) (fromRecords : Bool) :
    c.Precedes (c.plan levels fromRecords).2 := by
  unfold plan
  split_ifs
  · exact Precedes.refl c
  · unfold History.findClosest
    cases c.history.closest? levels <;> exact .of_eq ⟨rfl, rfl, rfl, rfl⟩ rfl rfl rfl

/-- A check visits all records, the classes of the last grouping if that is at most as
generalized, or the records of a snapshot that is usable. -/
theorem plan_source (c : Checker) (levels : List Nat) (fromRecords : Bool) :
    (c.plan levels fromRecords).1.source = .records ∨
      (∃ kept ∈ c.last, levelsLe kept.1 levels = true ∧
        (c.plan levels fromRecords).1.source = .classes kept.2) ∨
      ∃ found ∈ c.history.closest? levels,
        (c.plan levels fromRecords).1.source = .snapshot found.2 c.history.dictionary := by
  have hprevious : ∀ g, c.previous? levels = some g →
      ∃ kept ∈ c.last, levelsLe kept.1 levels = true ∧
        ScanSource.classes g = .classes kept.2 := by
    intro g hg
    unfold previous? at hg
    cases hlast : c.last with
    | none =>
      rw [hlast] at hg
      cases hg
    | some kept =>
      rw [hlast] at hg
      dsimp only at hg
      split_ifs at hg with hle
      cases hg
      exact ⟨kept, rfl, hle, rfl⟩
  unfold plan
  split_ifs
  · exact Or.inl rfl
  · unfold History.findClosest
    cases c.history.closest? levels with
    | none =>
      cases hprev : c.previous? levels with
      | none => exact Or.inl rfl
      | some g => exact Or.inr (Or.inl (hprevious g hprev))
    | some found =>
      cases hprev : c.previous? levels with
      | none => exact Or.inr (Or.inr ⟨found, rfl, rfl⟩)
      | some g =>
        simp only [ScanPlan.choose, Option.map_some]
        split_ifs
        · exact Or.inr (Or.inl (hprevious g hprev))
        · exact Or.inr (Or.inr ⟨found, rfl, rfl⟩)

/-- Whatever a check is going to regroup, it yields the grouping of all records. -/
theorem Faithful.group_plan {c : Checker} (hc : c.Faithful) {levels : List Nat}
    (hl : c.dataset.Admits levels) (fromRecords : Bool) (workers minRecords : Nat) :
    c.dataset.group? levels (c.plan levels fromRecords).1.source c.tracks workers minRecords =
      some (c.grouping levels) := by
  rcases c.plan_source levels fromRecords with
    hsource | ⟨kept, hkept, hle, hsource⟩ | ⟨found, hfound, hsource⟩
  · rw [hsource]
    exact hc.wellFormed.group_records hl _ _ _
  · obtain ⟨hadmits, hunjudged⟩ := hc.last kept hkept
    have hown := (levelsLe_iff (hadmits.length_eq.trans hl.length_eq.symm)).mp hle
    rw [hsource]
    exact hc.wellFormed.group_classes hown hl hunjudged _ _
  · obtain ⟨hmem, hle⟩ := History.closest?_spec hfound
    obtain ⟨-, hrestores⟩ := hc.held found hmem
    rw [hsource]
    exact hc.wellFormed.group_snapshot hle hl hrestores _ _

theorem precedes_keep {c : Checker} {levels : List Nat} (hl : c.dataset.Admits levels)
    {g : Grouping} (hg : g.unjudged = c.grouping levels) (id : Nat) (e : Evaluation)
    (plan : ScanPlan) : c.Precedes (c.keep id levels g e plan) := by
  have hlast : ∀ kept ∈ (c.keep id levels g e plan).last,
      c.dataset.Admits kept.1 ∧ kept.2.unjudged = c.grouping kept.1 := by
    intro kept hkept
    obtain rfl := Option.some.inj hkept
    exact ⟨hl, hg⟩
  rcases History.store_eq c.history id levels g e.loss plan.sourceSize with
    hstore | ⟨dropped, hheld, hdictionary⟩
  · have hhistory : (c.keep id levels g e plan).history = c.history := hstore
    refine ⟨⟨rfl, rfl, rfl, rfl⟩, hhistory ▸ Dictionary.Extends.refl _, fun _ h => ?_⟩
    exact ⟨h.wellFormed, h.narrow, hhistory ▸ h.sound, hhistory ▸ h.held, hlast⟩
  · have hextends : c.history.dictionary.Extends
        (c.keep id levels g e plan).history.dictionary := by
      have hall := Snapshot.extends_wordsOfAll g.tracks g.classes c.history.dictionary
      exact hdictionary ▸ hall
    refine ⟨⟨rfl, rfl, rfl, rfl⟩, hextends, fun hsize h => ?_⟩
    have hnarrow : ∀ x ∈ (c.grouping levels).classes, x.Narrow (c.grouping levels).tracks := by
      intro x hx
      have htracks : (c.grouping levels).tracks = c.tracks := Grouping.tracks_ofContributions _ _
      exact htracks ▸ Dataset.narrow_grouping h.narrow c.tracks levels x hx
    have hsize' : (Snapshot.ofGrouping levels g c.history.dictionary).2.size < 2 ^ 32 :=
      hdictionary ▸ hsize
    rw [← Snapshot.ofGrouping_unjudged, hg] at hsize' hheld hdictionary
    obtain ⟨hsound, hrestores⟩ := Snapshot.restores_ofGrouping hnarrow h.sound levels hsize'
    rw [← hdictionary] at hsound hrestores
    refine ⟨h.wellFormed, h.narrow, hsound, ?_, hlast⟩
    intro entry hentry
    rcases List.mem_append.mp (hheld ▸ hentry) with hold | hnew
    · obtain ⟨hadmits, hold⟩ := h.held entry (List.mem_of_mem_drop hold)
      exact ⟨hadmits, hold.extends hextends⟩
    · obtain rfl := List.mem_singleton.mp hnew
      exact ⟨hl, hrestores⟩

theorem Faithful.run_plan {c : Checker} (hc : c.Faithful) {levels : List Nat}
    (hl : c.dataset.Admits levels) (fromRecords : Bool) {after : Checker}
    (ha : after.Agrees c) (objective : Objective) :
    after.run levels (c.plan levels fromRecords).1 objective =
      (c.fullScan levels objective).map fun r =>
        ({ r.1 with kind := (c.plan levels fromRecords).1.kind }, r.2) := by
  have hgroup := hc.group_plan hl fromRecords after.workers after.minRecords
  rw [← ha.dataset, ← ha.tracks] at hgroup
  have hgroup : after.group? levels (c.plan levels fromRecords).1.source =
      some (c.grouping levels) := hgroup
  rw [run, hgroup, ← ha.fullScan, fullScan, ha.grouping]
  exact evaluate_kind after levels (c.grouping levels) _ objective

theorem plan_count (c : Checker) (f : Counters → Counters) (levels : List Nat)
    (fromRecords : Bool) :
    ((c.count f).plan levels fromRecords).1 = (c.plan levels fromRecords).1 := by
  cases fromRecords <;> rfl

/-- The state in which a check judges: the lookup and the scan are counted. -/
def prepared (c : Checker) (levels : List Nat) (fromRecords : Bool) : Checker :=
  ((c.count Counters.check).plan levels fromRecords).2.countScan
    (c.plan levels fromRecords).1.kind

theorem last_prepared (c : Checker) (levels : List Nat) (fromRecords : Bool) :
    (c.prepared levels fromRecords).last = c.last := by
  cases fromRecords with
  | true => rfl
  | false =>
    unfold prepared plan History.findClosest
    cases (c.count Counters.check).history.closest? levels <;> rfl

theorem precedes_prepared (c : Checker) (levels : List Nat) (fromRecords : Bool) :
    c.Precedes (c.prepared levels fromRecords) :=
  (c.precedes_count Counters.check).trans
    ((precedes_plan _ levels fromRecords).trans (precedes_countScan _ _))

theorem exists_record {space : SolutionSpace} {id : Nat} {levels : List Nat}
    (hl : space.lattice.levelsOf id = .ok levels) (e : Evaluation) :
    ∃ recorded, space.record id e = .ok recorded := by
  have hnode : ∃ node, space.nodeOrUnknown id = .ok node := by
    unfold SolutionSpace.nodeOrUnknown
    cases space.node? id with
    | none => exact ⟨_, by rw [hl]; rfl⟩
    | some node => exact ⟨node, rfl⟩
  obtain ⟨node, hnode⟩ := hnode
  exact ⟨_, by rw [SolutionSpace.record, hnode]; rfl⟩

/-- A check of a known transformation. Once the grouping has been evaluated nothing fails. -/
theorem check_eq {c : Checker} {space : SolutionSpace} {id : Nat} {levels : List Nat}
    (hl : space.lattice.levelsOf id = .ok levels) (fromRecords : Bool) (objective : Objective) :
    c.check space id fromRecords objective =
      match (c.prepared levels fromRecords).run levels
        (c.plan levels fromRecords).1 objective with
      | .error e => (.error e, c.prepared levels fromRecords, space)
      | .ok (evaluation, g) =>
        match space.record id evaluation with
        | .error e => (.error e, c.prepared levels fromRecords, space)
        | .ok recorded =>
          (.ok evaluation, (c.prepared levels fromRecords).keep id levels g evaluation
            (c.plan levels fromRecords).1, recorded) := by
  have hstored : c.check space id fromRecords objective =
      match (c.prepared levels fromRecords).run levels
        (c.plan levels fromRecords).1 objective with
      | .error e => (.error e, c.prepared levels fromRecords, space)
      | .ok (evaluation, g) =>
        let kept := (c.prepared levels fromRecords).keep id levels g evaluation
          (c.plan levels fromRecords).1
        match space.record id evaluation with
        | .error e => (.error e, { kept with last := (c.prepared levels fromRecords).last }, space)
        | .ok recorded => (.ok evaluation, kept, recorded) := by
    rw [← plan_count c Counters.check, prepared, ← plan_count c Counters.check, check, hl]
    rfl
  rw [hstored]
  cases (c.prepared levels fromRecords).run levels (c.plan levels fromRecords).1 objective with
  | error failure => rfl
  | ok evaluated =>
    obtain ⟨recorded, hrecorded⟩ := exists_record hl evaluated.1
    dsimp only
    rw [hrecorded]

section
variable {c : Checker} (hc : c.Faithful) {space : SolutionSpace}
  (hs : c.dataset.Covers space.lattice) {id : Nat} {levels : List Nat}
  (hl : space.lattice.levelsOf id = .ok levels) {objective : Objective}
include hc hs hl

theorem Faithful.check_scan (fromRecords : Bool) :
    c.check space id fromRecords objective =
      match c.fullScan levels objective with
      | .error failure => (.error failure, c.prepared levels fromRecords, space)
      | .ok (e, g) =>
        match space.record id { e with kind := (c.plan levels fromRecords).1.kind } with
        | .error failure => (.error failure, c.prepared levels fromRecords, space)
        | .ok recorded => (.ok { e with kind := (c.plan levels fromRecords).1.kind },
          (c.prepared levels fromRecords).keep id levels g
            { e with kind := (c.plan levels fromRecords).1.kind } (c.plan levels fromRecords).1,
          recorded) := by
  have hrun := hc.run_plan (hs.admits hl) fromRecords
    (c.precedes_prepared levels fromRecords).agrees objective
  rw [check_eq hl, hrun]
  cases c.fullScan levels objective <;> rfl

/-- A check fails if a scan of all records fails, and leaves the space as it is. -/
theorem Faithful.check_error {failure : Failure}
    (h : c.fullScan levels objective = .error failure) (fromRecords : Bool) :
    c.check space id fromRecords objective =
      (.error failure, c.prepared levels fromRecords, space) := by
  have hrun := hc.run_plan (hs.admits hl) fromRecords
    (c.precedes_prepared levels fromRecords).agrees objective
  rw [h, map_error] at hrun
  rw [check_eq hl, hrun]

theorem Faithful.check_ok {e : Evaluation} {g : Grouping}
    (h : c.fullScan levels objective = .ok (e, g)) (fromRecords : Bool) :
    ∃ after recorded, c.check space id fromRecords objective =
        (.ok { e with kind := (c.plan levels fromRecords).1.kind }, after, recorded) ∧
      c.Precedes after ∧ after.last = some (levels, g) ∧ space.record id e = .ok recorded := by
  have hprepared := c.precedes_prepared levels fromRecords
  have hrun := hc.run_plan (hs.admits hl) fromRecords hprepared.agrees objective
  rw [h, map_ok] at hrun
  obtain ⟨recorded, hrecorded⟩ := exists_record hl
    { e with kind := (c.plan levels fromRecords).1.kind }
  refine ⟨_, recorded, by rw [check_eq hl, hrun]; dsimp only; rw [hrecorded], ?_, rfl,
    hrecorded⟩
  refine hprepared.trans (precedes_keep (hprepared.agrees.dataset ▸ hs.admits hl) ?_ id _ _)
  rw [hprepared.agrees.grouping, Grouping.analyze_unjudged (evaluate_ok h).1]
  exact Grouping.unjudged_ofContributions _ _

theorem Faithful.check_learned (fromRecords : Bool) (objective : Objective) :
    let learned := c.fullScan levels objective >>= fun r => space.record id r.1
    (c.check space id fromRecords objective).1.map (fun _ => ()) = learned.map (fun _ => ()) ∧
      (c.check space id fromRecords objective).2.2 = learned.toOption.getD space := by
  cases hscan : c.fullScan levels objective with
  | error failure =>
    rw [hc.check_error hs hl hscan]
    exact ⟨rfl, rfl⟩
  | ok evaluated =>
    obtain ⟨e, g⟩ := evaluated
    obtain ⟨after, recorded, hcheck, -, -, hrecord⟩ := hc.check_ok hs hl hscan fromRecords
    rw [hcheck, ok_bind, hrecord]
    exact ⟨rfl, rfl⟩

end

theorem check_unknown {c : Checker} {space : SolutionSpace} {id : Nat} {failure : Failure}
    (hl : space.lattice.levelsOf id = .error failure) (fromRecords : Bool)
    (objective : Objective) :
    c.check space id fromRecords objective = (.error failure, c, space) := by
  rw [check, hl]

theorem agrees_check (c : Checker) (space : SolutionSpace) (id : Nat) (fromRecords : Bool)
    (objective : Objective) : (c.check space id fromRecords objective).2.1.Agrees c ∧
      c.history.dictionary.Extends
        (c.check space id fromRecords objective).2.1.history.dictionary := by
  cases hl : space.lattice.levelsOf id with
  | error failure =>
    rw [check_unknown hl]
    exact ⟨Agrees.refl c, Dictionary.Extends.refl _⟩
  | ok levels =>
    have hprepared := c.precedes_prepared levels fromRecords
    rw [check_eq hl]
    cases (c.prepared levels fromRecords).run levels (c.plan levels fromRecords).1 objective with
    | error failure => exact ⟨hprepared.agrees, hprepared.extends_dictionary⟩
    | ok evaluated =>
      obtain ⟨e, g⟩ := evaluated
      dsimp only
      cases space.record id e with
      | error failure => exact ⟨hprepared.agrees, hprepared.extends_dictionary⟩
      | ok recorded =>
        have hkeep : ((c.prepared levels fromRecords).keep id levels g e
            (c.plan levels fromRecords).1).Agrees (c.prepared levels fromRecords) :=
          ⟨rfl, rfl, rfl, rfl⟩
        exact ⟨hkeep.trans hprepared.agrees,
          hprepared.extends_dictionary.trans (History.extends_store _ _ _ _ _ _)⟩

theorem precedes_check {c : Checker} {space : SolutionSpace}
    (hs : c.dataset.Covers space.lattice) (id : Nat) (fromRecords : Bool)
    (objective : Objective) :
    c.Precedes (c.check space id fromRecords objective).2.1 := by
  obtain ⟨hagrees, hextends⟩ := c.agrees_check space id fromRecords objective
  refine ⟨hagrees, hextends, fun hsize hc => ?_⟩
  cases hl : space.lattice.levelsOf id with
  | error failure => rwa [check_unknown hl]
  | ok levels =>
    cases hscan : c.fullScan levels objective with
    | error failure =>
      rw [hc.check_error hs hl hscan] at hsize ⊢
      exact (c.precedes_prepared levels fromRecords).faithful hsize hc
    | ok evaluated =>
      obtain ⟨after, recorded, hcheck, hprecedes, -, -⟩ := hc.check_ok hs hl hscan fromRecords
      rw [hcheck] at hsize ⊢
      exact hprecedes.faithful hsize hc

theorem dataset_create {d : Dataset} {criteria : List Criterion} {metric : Metric}
    {settings : CheckerSettings} {c : Checker} (h : create d criteria metric settings = .ok c) :
    c.dataset = d := by
  obtain ⟨prepared, -, h⟩ := bind_eq_ok.mp h
  obtain ⟨measured, -, h⟩ := bind_eq_ok.mp h
  cases h
  rfl

theorem faithful_create {d : Dataset} (hd : d.WellFormed) (hrecords : d.records < 2 ^ 32)
    {criteria : List Criterion} {metric : Metric} {settings : CheckerSettings} {c : Checker}
    (h : create d criteria metric settings = .ok c) : c.Faithful ∧ c.dataset = d := by
  obtain ⟨prepared, -, h⟩ := bind_eq_ok.mp h
  obtain ⟨metric, -, h⟩ := bind_eq_ok.mp h
  cases h
  exact ⟨⟨hd, hrecords, Dictionary.sound_empty, by simp [History.empty], by simp⟩, rfl⟩

theorem agrees_create {d : Dataset} {criteria : List Criterion} {metric : Metric}
    {settings others : CheckerSettings} {a b : Checker}
    (ha : create d criteria metric settings = .ok a)
    (hb : create d criteria metric others = .ok b) : a.Agrees b := by
  obtain ⟨prepared, hprepared, ha⟩ := bind_eq_ok.mp ha
  obtain ⟨measured, hmeasured, ha⟩ := bind_eq_ok.mp ha
  rw [create, hprepared, ok_bind, hmeasured, ok_bind] at hb
  cases ha
  cases hb
  exact ⟨rfl, rfl, rfl, rfl⟩

end Checker
end Recoding
