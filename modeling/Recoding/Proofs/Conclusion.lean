import Recoding.Proofs.Release
import Recoding.Proofs.Search.Lockstep

/-!
# How runs conclude

A run is a search between two parts that know nothing of each other: what prepares it, and what
is made of the state in which it ends.
-/

namespace Recoding

namespace Anonymizer

/-- A score that was never measured is not reported. -/
def certified? : Option Rat → Except Failure (Option Float)
  | none => .ok none
  | some score => (certified score).map some

theorem Outcome.of_eq (checker : Checker) (space : SolutionSpace) (id : Nat) :
    Outcome.of checker space id = space.lattice.levelsOf id >>= fun levels =>
      space.nodeOrUnknown id >>= fun node => certified? node.score >>= fun score =>
        (checker.release levels).map fun release =>
          ⟨some levels, node.loss.map Loss.value, score, some release⟩ := by
  refine bind_congr fun levels => bind_congr fun node => ?_
  cases node.score with
  | none => cases checker.release levels <;> rfl
  | some score => cases certified score <;> cases checker.release levels <;> rfl

/-- What is reported and released of the state in which a search ends. -/
def Outcome.ofEnd (x : Exploration) : Except Failure Outcome :=
  match x.progress.optimum with
  | some id => Outcome.of x.checker x.space id
  | none => .ok Outcome.nothing

/-- What a run returns with the answer of its search and the state in which it ends. -/
def concluded (a : Anonymizer) (plan : SearchPlan) (proved : Bool) (x : Exploration)
    (outcome : Outcome) : Anonymized where
  release := outcome.release
  report := {
    levels := outcome.levels
    informationLoss := outcome.informationLoss
    score := outcome.score
    anonymous := x.progress.optimum.any fun id => x.space.has id Mark.anonymous
    optimal := proved && a.settings.search.method == .bestFirst
    criteria := x.checker.criteria.map Criterion.render
    metric := x.checker.metric.render
    search := Search.render ⟨plan, x.progress, x.source⟩
    counters := x.checker.counters }

/-- A report shows nothing of a state but its progress, its space, and the criteria, the metric
and the counters of its checker. -/
theorem concluded_congr {a b : Anonymizer} (hsearch : b.settings.search = a.settings.search)
    {x y : Exploration} (hprogress : x.progress = y.progress) (hspace : x.space = y.space)
    (hcriteria : x.checker.criteria = y.checker.criteria)
    (hmetric : x.checker.metric = y.checker.metric) (plan : SearchPlan) (proved : Bool)
    (first second : Outcome) (hlevels : first.levels = second.levels)
    (hloss : first.informationLoss = second.informationLoss)
    (hscore : first.score = second.score) :
    (a.concluded plan proved x first).report =
      { (b.concluded plan proved y second).report with counters := x.checker.counters } := by
  unfold concluded
  simp only [hsearch, hprogress, hspace, hcriteria, hmetric, hlevels, hloss, hscore]
  rfl

/-- A search that has been prepared, with what is made of its end. -/
def conclude (a : Anonymizer) (s : Search) (clock : Nat → Nat) (c : Checker) (l : Lattice) :
    Except Failure Anonymized :=
  (s.traverse clock c (.ofLattice l)).1 >>= fun proved =>
    (Outcome.ofEnd (s.ended clock c (.ofLattice l))).map
      (a.concluded s.plan proved (s.ended clock c (.ofLattice l)))

theorem anonymize_eq (a : Anonymizer) (d : Dataset) (surroundings : Surroundings) :
    a.anonymize d surroundings = a.checker d surroundings.order >>= fun c =>
      Lattice.ofBounds d.minLevels d.maxLevels >>= fun l =>
        Search.ofSettings a.settings.search surroundings.entropy >>= fun s =>
          a.conclude s surroundings.clock c l := by
  unfold anonymize
  refine bind_congr fun c => bind_congr fun l => bind_congr fun s => ?_
  have hplan : (s.traverse surroundings.clock c (.ofLattice l)).2.1.plan = s.plan := rfl
  unfold conclude Search.ended
  rcases htraverse : s.traverse surroundings.clock c (.ofLattice l) with
    ⟨answer, search, checker, space⟩
  rw [htraverse] at hplan
  dsimp only at hplan ⊢
  rw [← hplan]
  refine bind_congr fun proved => ?_
  unfold Outcome.ofEnd concluded
  dsimp only
  cases search.progress.optimum with
  | none => rfl
  | some id => cases Outcome.of checker space id <;> rfl

/-- The numbers of distributions of a run fit into words. -/
def Fits (a : Anonymizer) (d : Dataset) (surroundings : Surroundings) : Prop :=
  ∀ c l s, a.checker d surroundings.order = .ok c →
    Lattice.ofBounds d.minLevels d.maxLevels = .ok l →
      Search.ofSettings a.settings.search surroundings.entropy = .ok s →
        (s.ended surroundings.clock c (.ofLattice l)).Fits

end Anonymizer

/-- From the same settings come the same searches, unless draws depend on the surroundings. -/
theorem Search.twin_ofSettings {settings : SearchSettings}
    (h : settings.method = .privateWalk → settings.deterministic = true)
    (entropy other : RandomSource) : SameOutcome
      (fun s t => s.Twin t ∧ s.progress.timeLimit = settings.timeLimit)
      (ofSettings settings entropy) (ofSettings settings other) := by
  unfold ofSettings
  cases hmethod : settings.method with
  | bestFirst => exact .ok ⟨⟨rfl, rfl, Or.inl rfl⟩, rfl⟩
  | privateWalk =>
    dsimp only
    rw [if_pos (h hmethod), if_pos (h hmethod)]
    exact .of_eq fun s hs => by
      obtain ⟨perStep, -, hs⟩ := bind_eq_ok.mp hs
      cases hs
      exact ⟨⟨rfl, rfl, Or.inr rfl⟩, rfl⟩

end Recoding
