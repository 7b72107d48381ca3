import Recoding.Proofs.Check.Capable
import Recoding.Proofs.Sample
import Recoding.Proofs.Search.Knowledge

/-!
# Failed checks

A check that fails has counted what it has done, and nothing else. No answer depends on counters,
so whatever is asked later is answered as if the failed check had never been made.
-/

namespace Recoding

def History.uncounted (h : History) : History := { h with counters := ⟨0, 0, 0, 0⟩ }

/-- The checker with all counters at zero, those of the history included. -/
def Checker.uncounted (c : Checker) : Checker :=
  { c with history := c.history.uncounted, counters := Counters.zero }

/-! ## Counters are written only -/

namespace History
variable (h : History)

theorem findClosest_uncounted (levels : List Nat) :
    (h.findClosest levels).2.uncounted = h.uncounted := by
  unfold findClosest
  cases h.closest? levels <;> rfl

theorem store_uncounted (id : Nat) (levels : List Nat) (g : Grouping) (loss : Loss)
    (sourceSize : Option Nat) :
    (h.uncounted.store id levels g loss sourceSize).2.uncounted =
      (h.store id levels g loss sourceSize).2.uncounted := by
  have haccepts : h.uncounted.accepts id g.size loss sourceSize =
      h.accepts id g.size loss sourceSize := rfl
  unfold store
  rw [haccepts]
  split_ifs <;> rfl

end History

namespace Checker
variable (c : Checker)

theorem plan_uncounted (levels : List Nat) (fromRecords : Bool) :
    (c.uncounted.plan levels fromRecords).1 = (c.plan levels fromRecords).1 := by
  cases fromRecords with
  | true => rfl
  | false =>
    have hclosest : c.uncounted.history.closest? levels = c.history.closest? levels := rfl
    have hprevious : c.uncounted.previous? levels = c.previous? levels := rfl
    unfold plan History.findClosest
    rw [hclosest, hprevious]
    cases c.history.closest? levels <;> rfl

theorem prepared_uncounted (levels : List Nat) (fromRecords : Bool) :
    (c.prepared levels fromRecords).uncounted = c.uncounted := by
  cases fromRecords with
  | true => rfl
  | false =>
    exact congrArg (fun history => { c.uncounted with history })
      (c.history.findClosest_uncounted levels)

theorem run_uncounted (levels : List Nat) (plan : ScanPlan) (objective : Objective) :
    c.uncounted.run levels plan objective = c.run levels plan objective := rfl

theorem keep_uncounted (id : Nat) (levels : List Nat) (g : Grouping) (e : Evaluation)
    (plan : ScanPlan) :
    (c.uncounted.keep id levels g e plan).uncounted = (c.keep id levels g e plan).uncounted := by
  have hhistory := c.history.store_uncounted id levels g e.loss plan.sourceSize
  exact congrArg (fun history => { c.uncounted with history, last := some (levels, g) }) hhistory

theorem check_uncounted (space : SolutionSpace) (id : Nat) (fromRecords : Bool)
    (objective : Objective) :
    (c.uncounted.check space id fromRecords objective).1 =
        (c.check space id fromRecords objective).1 ∧
      (c.uncounted.check space id fromRecords objective).2.2 =
        (c.check space id fromRecords objective).2.2 ∧
      (c.uncounted.check space id fromRecords objective).2.1.uncounted =
        (c.check space id fromRecords objective).2.1.uncounted := by
  cases hlevels : space.lattice.levelsOf id with
  | error failure =>
    rw [check_unknown hlevels, check_unknown hlevels]
    exact ⟨rfl, rfl, rfl⟩
  | ok levels =>
    have hown := c.prepared_uncounted levels fromRecords
    have hplain := c.uncounted.prepared_uncounted levels fromRecords
    have hrun : (c.uncounted.prepared levels fromRecords).run levels
        (c.plan levels fromRecords).1 objective =
          (c.prepared levels fromRecords).run levels (c.plan levels fromRecords).1 objective := by
      rw [← run_uncounted, hplain, ← run_uncounted (c.prepared levels fromRecords), hown]
      rfl
    rw [check_eq hlevels, check_eq hlevels, c.plan_uncounted, hrun]
    cases (c.prepared levels fromRecords).run levels (c.plan levels fromRecords).1 objective with
    | error failure => exact ⟨rfl, rfl, hplain.trans hown.symm⟩
    | ok evaluated =>
      obtain ⟨e, g⟩ := evaluated
      obtain ⟨recorded, hrecorded⟩ := exists_record hlevels e
      dsimp only
      rw [hrecorded]
      refine ⟨rfl, rfl, ?_⟩
      rw [← keep_uncounted, ← keep_uncounted (c.prepared levels fromRecords), hplain, hown]
      rfl

theorem check_failed {c : Checker} {space : SolutionSpace} {id : Nat} {fromRecords : Bool}
    {objective : Objective} {failure : Failure}
    (hfailed : (c.check space id fromRecords objective).1 = .error failure) :
    (c.check space id fromRecords objective).2.1.uncounted = c.uncounted ∧
      (c.check space id fromRecords objective).2.2 = space := by
  cases hlevels : space.lattice.levelsOf id with
  | error own =>
    rw [check_unknown hlevels]
    exact ⟨rfl, rfl⟩
  | ok levels =>
    rw [check_eq hlevels] at hfailed ⊢
    cases hrun : (c.prepared levels fromRecords).run levels (c.plan levels fromRecords).1
      objective with
    | error own => exact ⟨c.prepared_uncounted levels fromRecords, rfl⟩
    | ok evaluated =>
      obtain ⟨recorded, hrecorded⟩ := exists_record hlevels evaluated.1
      rw [hrun] at hfailed
      dsimp only at hfailed
      rw [hrecorded] at hfailed
      cases hfailed

/-! ## Sessions -/

/-- A step in the use of a checker and a space. Searches write to the space and count, too. -/
inductive Step where
  | check (id : Nat) (fromRecords : Bool) (objective : Objective)
  | write (f : SolutionSpace → SolutionSpace)
  | setRetention (retention : Retention)
  | resetHistory
  | count (f : Counters → Counters)

/-- Steps that stay on a lattice. -/
def Step.On (l : Lattice) : Step → Prop
  | .write f => ∀ space : SolutionSpace, space.lattice = l → (f space).lattice = l
  | _ => True

/-- The checker and the space after a step, whether or not it has succeeded. -/
def take (state : Checker × SolutionSpace) : Step → Checker × SolutionSpace
  | .check id fromRecords objective => (state.1.check state.2 id fromRecords objective).2
  | .write f => (state.1, f state.2)
  | .setRetention retention => (state.1.setRetention retention, state.2)
  | .resetHistory => ({ state.1 with history := state.1.history.reset }, state.2)
  | .count f => (state.1.count f, state.2)

theorem agrees_take (state : Checker × SolutionSpace) (step : Step) :
    (take state step).1.Agrees state.1 := by
  cases step with
  | check id fromRecords objective =>
    exact (agrees_check state.1 state.2 id fromRecords objective).1
  | write f => exact Agrees.refl _
  | setRetention retention => exact ⟨rfl, rfl, rfl, rfl⟩
  | resetHistory => exact ⟨rfl, rfl, rfl, rfl⟩
  | count f => exact ⟨rfl, rfl, rfl, rfl⟩

theorem agrees_takeAll (state : Checker × SolutionSpace) (steps : List Step) :
    (steps.foldl take state).1.Agrees state.1 := by
  induction steps generalizing state with
  | nil => exact Agrees.refl _
  | cons step steps ih => exact (ih (take state step)).trans (agrees_take state step)

def answer? (state : Checker × SolutionSpace) : Step → Option (Except Failure Evaluation)
  | .check id fromRecords objective => some (state.1.check state.2 id fromRecords objective).1
  | _ => none

def answers (state : Checker × SolutionSpace) :
    List Step → List (Option (Except Failure Evaluation))
  | [] => []
  | step :: steps => answer? state step :: answers (take state step) steps

/-- The checkers and spaces that steps on a lattice lead to from new ones. -/
inductive Reached (l : Lattice) : Checker × SolutionSpace → Prop
  | new {d : Dataset} (hd : d.Accepted) (hl : d.Covers l) {criteria : List Criterion}
      {metric : Metric} {settings : CheckerSettings} {c : Checker}
      (hc : create d criteria metric settings = .ok c) : Reached l (c, .ofLattice l)
  | step {state : Checker × SolutionSpace} (h : Reached l state) {step : Step}
      (hstep : step.On l) : Reached l (take state step)

end Checker

/-- States that differ in counters at most. -/
structure Checker.Alike (x y : Checker × SolutionSpace) : Prop where
  checker : x.1.uncounted = y.1.uncounted
  space : x.2 = y.2

namespace Checker

theorem Alike.take {x y : Checker × SolutionSpace} (h : Alike x y) (step : Step) :
    answer? x step = answer? y step ∧ Alike (take x step) (take y step) := by
  obtain ⟨a, space⟩ := x
  obtain ⟨b, other⟩ := y
  obtain ⟨hchecker, rfl⟩ : a.uncounted = b.uncounted ∧ space = other := ⟨h.checker, h.space⟩
  cases step with
  | check id fromRecords objective =>
    obtain ⟨hanswer, hspace, hafter⟩ := a.check_uncounted space id fromRecords objective
    obtain ⟨hanswer', hspace', hafter'⟩ := b.check_uncounted space id fromRecords objective
    rw [hchecker] at hanswer hspace hafter
    exact ⟨congrArg some (hanswer.symm.trans hanswer'),
      hafter.symm.trans hafter', hspace.symm.trans hspace'⟩
  | write f => exact ⟨rfl, hchecker, rfl⟩
  | setRetention retention =>
    exact ⟨rfl, congrArg (·.setRetention retention) hchecker, rfl⟩
  | resetHistory =>
    have hafter := congrArg (fun c : Checker => { c with history := c.history.reset }) hchecker
    exact ⟨rfl, hafter, rfl⟩
  | count f => exact ⟨rfl, hchecker, rfl⟩

/-- No later answer depends on what has been counted. -/
theorem Alike.takeAll {x y : Checker × SolutionSpace} (h : Alike x y) (steps : List Step) :
    answers x steps = answers y steps ∧
      Alike (steps.foldl Checker.take x) (steps.foldl Checker.take y) := by
  induction steps generalizing x y with
  | nil => exact ⟨rfl, h⟩
  | cons step steps ih =>
    obtain ⟨hanswer, hafter⟩ := h.take step
    obtain ⟨hanswers, hlast⟩ := ih hafter
    exact ⟨by rw [answers, answers, hanswer, hanswers], hlast⟩

theorem Reached.capable {l : Lattice} {state : Checker × SolutionSpace} (h : Reached l state) :
    state.1.Capable l ∧ state.2.lattice = l := by
  induction h with
  | new hd hl hc => exact ⟨capable_create hd.wellFormed hc hl, rfl⟩
  | @step state _ step hstep ih =>
    obtain ⟨hcapable, hlattice⟩ := ih
    cases step with
    | check id fromRecords objective =>
      have hframe := SolutionSpace.check_frame state.1 state.2 id fromRecords objective
      refine ⟨?_, hframe.1.trans hlattice⟩
      rw [← hlattice] at hcapable ⊢
      exact hcapable.after_check id fromRecords objective
    | write f => exact ⟨hcapable, hstep _ hlattice⟩
    | setRetention retention => exact ⟨hcapable.setRetention retention, hlattice⟩
    | resetHistory => exact ⟨hcapable.reset, hlattice⟩
    | count f => exact ⟨hcapable.count f, hlattice⟩

/-- A check that fails leaves no trace: the space, the snapshots with their distributions and the
last grouping are what they were, and all later steps answer as they would have. It fails for an
unknown transformation, and then not even a counter changes, or because the metric cannot give
the score that is asked for. -/
theorem failure_traceless {l : Lattice} {c : Checker} {space : SolutionSpace}
    (hreached : Reached l (c, space)) {id : Nat} {fromRecords : Bool} {objective : Objective}
    {failure : Failure} {after : Checker} {left : SolutionSpace}
    (hfailed : c.check space id fromRecords objective = (.error failure, after, left)) :
    left = space ∧
    (after.history.held = c.history.held ∧ after.history.dictionary = c.history.dictionary ∧
      after.last = c.last ∧ after.uncounted = c.uncounted) ∧
    (l.size ≤ id → after = c ∧ failure = .unknownTransformation id) ∧
    (id < l.size → objective = .score ∧ ∃ g : Grouping, g.Grounded c.dataset.records ∧
      c.metric.score (l.levelsAt id) g = .error failure) ∧
    ∀ later : List Step, answers (after, left) later = answers (c, space) later ∧
      Alike (later.foldl take (after, left)) (later.foldl take (c, space)) := by
  obtain ⟨hcapable, hlattice⟩ := hreached.capable
  have hcapable : c.Capable space.lattice := hlattice.symm ▸ hcapable
  have hsize : space.lattice.size = l.size := congrArg Lattice.size hlattice
  obtain ⟨huncounted, hspace⟩ := check_failed (congrArg Prod.fst hfailed)
  rw [hfailed] at huncounted hspace
  dsimp only at huncounted hspace
  refine ⟨hspace, ⟨congrArg (·.history.held) huncounted,
    congrArg (·.history.dictionary) huncounted, congrArg (·.last) huncounted, huncounted⟩,
    fun hid => ?_, fun hid => ?_, fun later => ?_⟩
  · have hlevels : space.lattice.levelsOf id = .error (.unknownTransformation id) :=
      if_neg (by omega)
    rw [check_unknown hlevels] at hfailed
    cases hfailed
    exact ⟨rfl, rfl⟩
  · have hlevels := Lattice.levelsOf_levelsAt (hsize.symm ▸ hid)
    rw [← hlattice]
    exact hcapable.check_error hlevels (congrArg Prod.fst hfailed)
  · have halike : Alike (after, left) (c, space) := ⟨huncounted, hspace⟩
    exact halike.takeAll later

/-- The bottom of the sample is checked and stored. Then no score of the top can be told, but its
loss can. -/
theorem failure_traceless_sample :
    let state := take (Sample.measuring, .ofLattice Sample.lattice) (.check 0 false .loss)
    ∃ failure after, state.1.check state.2 1 false .score = (.error failure, after, state.2) ∧
      after.history.held.length = 1 ∧ after.counters.checks = 2 ∧
      ∃ e, answers (after, state.2) [.check 1 false .loss] = [some (.ok e)] ∧
        answers state [.check 1 false .loss] = [some (.ok e)] := by
  intro state
  obtain ⟨after, hfailed, hchecks⟩ : ∃ after, state.1.check state.2 1 false .score =
      (.error (.scoreUnsupported "Normalized non-uniform entropy"), after, state.2) ∧
        after.counters.checks = 2 := ⟨_, rfl, rfl⟩
  obtain ⟨e, hanswers⟩ : ∃ e, answers state [.check 1 false .loss] = [some (.ok e)] := ⟨_, rfl⟩
  have hcovers : Sample.dataset.Covers Sample.lattice :=
    Sample.dataset_accepted.wellFormed.covers Sample.lattice_eq
  have hreached : Reached Sample.lattice state :=
    .step (.new Sample.dataset_accepted hcovers Sample.measuring_eq)
      (show Step.On Sample.lattice (.check 0 false .loss) from trivial)
  obtain ⟨-, ⟨hheld, -⟩, -, -, hlater⟩ := failure_traceless hreached hfailed
  refine ⟨_, after, hfailed, ?_, hchecks, e, (hlater _).1.trans hanswers, hanswers⟩
  rw [hheld]
  decide +kernel

end Checker
end Recoding
