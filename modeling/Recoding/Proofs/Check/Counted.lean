import Recoding.Proofs.Check.Failed
import Recoding.Proofs.Grouping.Stores

/-!
# Counters add up

What checks do is counted by the engine and by the history, partly one by one and partly by
copying. Both books agree after every step, whether the step succeeds or fails.
-/

namespace Recoding

/-- Histories that come about without dropping all snapshots at once. -/
def History.Replayed (limits : HistoryLimits) (records : Nat) (h : History) : Prop :=
  ∃ operations : List HistoryStep, (∀ operation ∈ operations, operation ≠ .reset) ∧
    h = operations.foldl History.perform (History.empty limits records)

theorem History.Replayed.perform {limits : HistoryLimits} {records : Nat} {h : History}
    (hr : h.Replayed limits records) {operation : HistoryStep} (hop : operation ≠ .reset) :
    (h.perform operation).Replayed limits records := by
  obtain ⟨operations, hall, rfl⟩ := hr
  refine ⟨operations ++ [operation], fun own hown => ?_, by simp⟩
  rcases List.mem_append.mp hown with hbefore | hlast
  · exact hall own hbefore
  · rwa [List.mem_singleton.mp hlast]

namespace Checker

/-! ## Books -/

/-- The engine has counted one scan for each check, but for some that wait for theirs, and what the
history has counted. -/
structure Balanced (limits : HistoryLimits) (records waiting : Nat) (c : Checker) : Prop where
  scans : c.counters.checks = c.counters.fullScans + c.counters.representativeScans +
    c.counters.snapshotScans + waiting
  hits : c.counters.historyHits = c.history.counters.hits
  misses : c.counters.historyMisses = c.history.counters.misses
  stored : c.counters.snapshotsStored = c.history.counters.stored
  evicted : c.counters.snapshotsEvicted = c.history.counters.evictions
  replayed : c.history.Replayed limits records

structure Advanced (c after : Checker) (checks lookups : Nat) : Prop where
  checks : after.counters.checks = c.counters.checks + checks
  lookups : after.counters.historyHits + after.counters.historyMisses =
    c.counters.historyHits + c.counters.historyMisses + lookups

theorem Advanced.trans {c between after : Checker} {m n p q : Nat} (h : Advanced c between m n)
    (k : Advanced between after p q) : Advanced c after (m + p) (n + q) := by
  refine ⟨?_, ?_⟩
  · rw [k.checks, h.checks, Nat.add_assoc]
  · rw [k.lookups, h.lookups, Nat.add_assoc]

theorem balanced_create {d : Dataset} {criteria : List Criterion} {metric : Metric}
    {settings : CheckerSettings} {c : Checker} (hc : create d criteria metric settings = .ok c) :
    c.counters = Counters.zero ∧ c.Balanced settings.history d.records 0 := by
  obtain ⟨prepared, -, hc⟩ := bind_eq_ok.mp hc
  obtain ⟨measured, -, hc⟩ := bind_eq_ok.mp hc
  cases hc
  exact ⟨rfl, rfl, rfl, rfl, rfl, rfl, [], by simp, rfl⟩

namespace Balanced
variable {limits : HistoryLimits} {records waiting : Nat} {c : Checker}

theorem countCheck (h : c.Balanced limits records waiting) :
    (c.count Counters.check).Balanced limits records (waiting + 1) ∧
      Advanced c (c.count Counters.check) 1 0 :=
  ⟨⟨congrArg (· + 1) h.scans, h.hits, h.misses, h.stored, h.evicted, h.replayed⟩, rfl, rfl⟩

theorem countScan (h : c.Balanced limits records (waiting + 1)) (kind : ScanKind) :
    (c.countScan kind).Balanced limits records waiting ∧ Advanced c (c.countScan kind) 0 0 := by
  have hscans := h.scans
  cases kind <;>
    refine ⟨⟨?_, h.hits, h.misses, h.stored, h.evicted, h.replayed⟩, rfl, rfl⟩ <;>
    simp only [Checker.countScan, Counters.fullScan, Counters.representativeScan,
      Counters.snapshotScan] <;>
    omega

/-- A lookup is counted by the engine and by the history, as a hit or as a miss. -/
theorem plan (h : c.Balanced limits records waiting) (levels : List Nat) (fromRecords : Bool) :
    (c.plan levels fromRecords).2.Balanced limits records waiting ∧
      Advanced c (c.plan levels fromRecords).2 0 (!fromRecords).toNat := by
  cases fromRecords with
  | true => exact ⟨h, rfl, rfl⟩
  | false =>
    have hreplayed : (c.history.findClosest levels).2.Replayed limits records :=
      h.replayed.perform (show HistoryStep.lookup levels ≠ .reset from nofun)
    unfold Checker.plan
    unfold History.findClosest at *
    cases hclosest : c.history.closest? levels with
    | none =>
      rw [hclosest] at hreplayed
      exact ⟨⟨h.scans, h.hits, congrArg (· + 1) h.misses, h.stored, h.evicted, hreplayed⟩, rfl, rfl⟩
    | some found =>
      rw [hclosest] at hreplayed
      exact ⟨⟨h.scans, congrArg (· + 1) h.hits, h.misses, h.stored, h.evicted, hreplayed⟩, rfl,
        Nat.add_right_comm _ _ _⟩

theorem keep (h : c.Balanced limits records waiting) (id : Nat) (levels : List Nat)
    (g : Grouping) (e : Evaluation) (plan : ScanPlan) :
    (c.keep id levels g e plan).Balanced limits records waiting ∧
      Advanced c (c.keep id levels g e plan) 0 0 := by
  have hreplayed : (c.history.store id levels g e.loss plan.sourceSize).2.Replayed limits records :=
    h.replayed.perform
      (show HistoryStep.store id levels g e.loss plan.sourceSize ≠ .reset from nofun)
  unfold Checker.keep
  by_cases haccepts : c.history.accepts id g.size e.loss plan.sourceSize = true
  · rw [History.store_of_accepts haccepts] at hreplayed ⊢
    exact ⟨⟨h.scans, h.hits, h.misses, congrArg (· + 1) h.stored, rfl, hreplayed⟩, rfl, rfl⟩
  · rw [History.store_of_refused haccepts] at hreplayed ⊢
    exact ⟨⟨h.scans, h.hits, h.misses, h.stored, rfl, hreplayed⟩, rfl, rfl⟩

theorem prepared (h : c.Balanced limits records waiting) (levels : List Nat)
    (fromRecords : Bool) : (c.prepared levels fromRecords).Balanced limits records waiting ∧
      Advanced c (c.prepared levels fromRecords) 1 (!fromRecords).toNat := by
  obtain ⟨hcheck, hadvanced⟩ := h.countCheck
  obtain ⟨hplan, hlooked⟩ := hcheck.plan levels fromRecords
  obtain ⟨hscan, hscanned⟩ := hplan.countScan (c.plan levels fromRecords).1.kind
  have hall := (hadvanced.trans hlooked).trans hscanned
  rw [Nat.zero_add] at hall
  exact ⟨hscan, hall⟩

/-- A check of a transformation of the lattice is counted whether or not it succeeds, and a check
of any other is not. -/
theorem check (h : c.Balanced limits records waiting) (space : SolutionSpace) (id : Nat)
    (fromRecords : Bool) (objective : Objective) :
    (c.check space id fromRecords objective).2.1.Balanced limits records waiting ∧
      Advanced c (c.check space id fromRecords objective).2.1
        (decide (id < space.lattice.size)).toNat
        (decide (id < space.lattice.size) && !fromRecords).toNat := by
  by_cases hid : id < space.lattice.size
  · have hlevels : space.lattice.levelsOf id = .ok _ := if_pos hid
    rw [decide_eq_true hid, Bool.true_and]
    generalize Lattice.decode space.lattice.axes id = levels at hlevels
    obtain ⟨hprepared, hadvanced⟩ := h.prepared levels fromRecords
    rw [check_eq hlevels]
    cases (c.prepared levels fromRecords).run levels (c.plan levels fromRecords).1 objective with
    | error failure => exact ⟨hprepared, hadvanced⟩
    | ok evaluated =>
      obtain ⟨e, g⟩ := evaluated
      obtain ⟨recorded, hrecorded⟩ := exists_record hlevels e
      obtain ⟨hkept, hunchanged⟩ := hprepared.keep id levels g e (c.plan levels fromRecords).1
      dsimp only
      rw [hrecorded]
      exact ⟨hkept, hadvanced.trans hunchanged⟩
  · have hlevels : space.lattice.levelsOf id = .error (.unknownTransformation id) := if_neg hid
    rw [check_unknown hlevels, decide_eq_false hid]
    exact ⟨h, rfl, rfl⟩

end Balanced

/-! ## Sessions -/

/-- Steps that keep the books: beside its checks a search counts what it prunes and draws, and
the history is never dropped. -/
def Step.Orderly : Step → Prop
  | .resetHistory => False
  | .count f => f = Counters.pruned ∨ f = Counters.draw
  | _ => True

def Step.isCheck (space : SolutionSpace) : Step → Bool
  | .check id _ _ => decide (id < space.lattice.size)
  | _ => false

/-- Whether a step checks a transformation of the lattice that may be regrouped. -/
def Step.isLookup (space : SolutionSpace) : Step → Bool
  | .check id fromRecords _ => decide (id < space.lattice.size) && !fromRecords
  | _ => false

/-- How many steps have a property of the space that they are taken in. -/
def tally (p : SolutionSpace → Step → Bool) (state : Checker × SolutionSpace) :
    List Step → Nat
  | [] => 0
  | step :: steps => (p state.2 step).toNat + tally p (take state step) steps

theorem Balanced.take {limits : HistoryLimits} {records waiting : Nat}
    {state : Checker × SolutionSpace} (h : state.1.Balanced limits records waiting) {step : Step}
    (hstep : step.Orderly) : (take state step).1.Balanced limits records waiting ∧
      Advanced state.1 (take state step).1 (step.isCheck state.2).toNat
        (step.isLookup state.2).toNat := by
  cases step with
  | check id fromRecords objective => exact h.check state.2 id fromRecords objective
  | write f => exact ⟨h, rfl, rfl⟩
  | setRetention retention =>
    have hreplayed : (state.1.history.setRetention retention).Replayed limits records :=
      h.replayed.perform (show HistoryStep.retain retention ≠ .reset from nofun)
    exact ⟨⟨h.scans, h.hits, h.misses, h.stored, h.evicted, hreplayed⟩, rfl, rfl⟩
  | resetHistory => exact absurd hstep id
  | count f =>
    rcases hstep with rfl | rfl <;>
      exact ⟨⟨h.scans, h.hits, h.misses, h.stored, h.evicted, h.replayed⟩, rfl, rfl⟩

theorem Balanced.takeAll {limits : HistoryLimits} {records waiting : Nat}
    {state : Checker × SolutionSpace} (h : state.1.Balanced limits records waiting)
    {steps : List Step} (hsteps : ∀ step ∈ steps, step.Orderly) :
    (steps.foldl Checker.take state).1.Balanced limits records waiting ∧
      Advanced state.1 (steps.foldl Checker.take state).1 (tally Step.isCheck state steps)
        (tally Step.isLookup state steps) := by
  induction steps generalizing state with
  | nil => exact ⟨h, rfl, rfl⟩
  | cons step steps ih =>
    obtain ⟨hstep, hrest⟩ := List.forall_mem_cons.mp hsteps
    obtain ⟨hnext, hadvanced⟩ := h.take hstep
    obtain ⟨hlast, hremaining⟩ := ih hnext hrest
    exact ⟨hlast, hadvanced.trans hremaining⟩

/-- The counters of the engine add up after any checks with changes of the space and the retention
between them: there is a scan for every check of a transformation of the lattice, a lookup for
every such check that may regroup, and the lookups, the stored and the evicted snapshots are those
that the history has counted. What was stored is held or was evicted, and no more is held than the
limit allows; a map of snapshots with a queue goes the same way. -/
theorem counters_add_up {d : Dataset} {criteria : List Criterion} {metric : Metric}
    {settings : CheckerSettings} {c : Checker} (hc : create d criteria metric settings = .ok c)
    (space : SolutionSpace) {steps : List Step} (hsteps : ∀ step ∈ steps, step.Orderly) :
    let after := (steps.foldl take (c, space)).1
    let engine := after.counters
    let history := after.history.counters
    (engine.checks = engine.fullScans + engine.representativeScans + engine.snapshotScans ∧
      engine.checks = tally Step.isCheck (c, space) steps) ∧
    (engine.historyHits + engine.historyMisses = tally Step.isLookup (c, space) steps ∧
      engine.historyHits = history.hits ∧ engine.historyMisses = history.misses) ∧
    (engine.snapshotsStored = history.stored ∧ engine.snapshotsEvicted = history.evictions) ∧
    engine.snapshotsStored = engine.snapshotsEvicted + after.history.size ∧
    after.history.size ≤ settings.history.maxEntries ∧
    ∃ operations, ((SnapshotStore.empty settings.history d.records).run [] operations).1.Keeps
      after.history := by
  intro after engine history
  obtain ⟨hzero, hnew⟩ := balanced_create hc
  have hstate : (c, space).1.Balanced settings.history d.records 0 := hnew
  obtain ⟨h, hadvanced⟩ := hstate.takeAll hsteps
  obtain ⟨operations, hkept, hreplayed⟩ := h.replayed
  obtain ⟨own, hown, hkeeps, hsane, -, hbalance⟩ := SnapshotStore.exists_history settings.history
    d.records (SnapshotStore.keeps_empty settings.history d.records) History.sane_empty operations
  obtain rfl : after.history = own := hreplayed.trans hown.symm
  have hchecks := hadvanced.checks
  have hlookups := hadvanced.lookups
  rw [hzero] at hchecks hlookups
  refine ⟨⟨h.scans, hchecks.trans (Nat.zero_add _)⟩, ⟨hlookups.trans (Nat.zero_add _), h.hits,
    h.misses⟩, ⟨h.stored, h.evicted⟩, ?_, hsane.size_le, operations, hkeeps⟩
  show after.counters.snapshotsStored = after.counters.snapshotsEvicted + after.history.size
  rw [h.stored, h.evicted]
  exact hbalance hkept rfl

/-- A history of one snapshot evicts it for another. A check of what does not exist and one whose
score cannot be given are among the steps. -/
theorem counters_add_up_evicting :
    let settings : CheckerSettings := ⟨⟨.all, 0.0, 1, 1.0, 1.0⟩, 1, 1⟩
    let steps : List Step := [.check 0 false .loss, .check 7 false .loss, .check 1 false .score,
      .check 1 false .loss, .setRetention .none, .count Counters.pruned, .check 1 true .loss,
      .check 0 false .loss]
    ∃ c, create Sample.dataset [.kAnonymity 2] (.ofChoice .firstSeen (.normalizedEntropy .sum)) settings =
        .ok c ∧
      let state := (c, SolutionSpace.ofLattice Sample.lattice)
      let after := (steps.foldl take state).1
      after.counters = ⟨5, 3, 0, 2, 2, 2, 2, 1, 1, 0⟩ ∧ tally Step.isCheck state steps = 5 ∧
        tally Step.isLookup state steps = 4 ∧ after.history.size = 1 := by
  intro settings steps
  have hc : create Sample.dataset [.kAnonymity 2] (.ofChoice .firstSeen (.normalizedEntropy .sum)) settings =
      .ok { Sample.measuring with history := History.empty settings.history 2 } := rfl
  have hsteps : ∀ step ∈ steps, step.Orderly := by simp [steps, Step.Orderly]
  have hcounters : (steps.foldl take ({ Sample.measuring with
      history := History.empty settings.history 2 }, .ofLattice Sample.lattice)).1.counters =
        ⟨5, 3, 0, 2, 2, 2, 2, 1, 1, 0⟩ := by decide +kernel
  obtain ⟨⟨-, hchecks⟩, ⟨hlookups, -⟩, -, hheld, -⟩ :=
    counters_add_up hc (.ofLattice Sample.lattice) hsteps
  rw [hcounters] at hchecks hlookups hheld
  exact ⟨_, hc, hcounters, hchecks.symm, hlookups.symm, (Nat.add_left_cancel hheld).symm⟩

end Checker
end Recoding
