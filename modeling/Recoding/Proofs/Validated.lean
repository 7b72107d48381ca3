import Recoding.Proofs.Check.Released
import Recoding.Proofs.Check.Scored
import Recoding.Proofs.Conclusion
import Recoding.Proofs.Preparation
import Recoding.Proofs.Search.Unfailing

/-!
# Validated settings do not fail later

Once its settings are accepted, a run returns a result, unless the lattice is too large or the
dataset lacks the sensitive values that a criterion of diversity looks at. Then it fails while it is
prepared, before anything is checked.
-/

namespace Recoding

namespace Anonymizer

/-! ## Ends -/

theorem certified?_ok {score : Option ℚ} (h : ∀ own ∈ score, |own| ≤ 2 ^ 1023) :
    ∃ x, certified? score = .ok x := by
  cases score with
  | none => exact ⟨none, rfl⟩
  | some own =>
    obtain ⟨x, hx⟩ := certified_ok (h own rfl)
    exact ⟨some x, by rw [certified?, hx, map_ok]⟩

theorem release_succeeds {c : Checker} {l : Lattice} (h : c.Capable l) {id : Nat}
    (hid : id < l.size) : ∃ release, c.release (l.levelsAt id) = .ok release := by
  have hl := h.covers.admits (Lattice.levelsOf_levelsAt hid)
  obtain ⟨release, hrelease, -⟩ := Checker.exists_release h.wellFormed h.ready hl
  exact ⟨release, hrelease⟩

/-- Something can be made of every state in which a search ends that does not fail. -/
theorem Outcome.ofEnd_succeeds {goal : Objective} {l : Lattice} {x : Exploration}
    (h : Exploration.Sturdy goal l x) : ∃ outcome, Outcome.ofEnd x = .ok outcome := by
  unfold Outcome.ofEnd
  cases hoptimum : x.progress.optimum with
  | none => exact ⟨Outcome.nothing, rfl⟩
  | some id =>
    have hid := h.optimum id hoptimum
    have hlevels := h.levelsOf hid
    obtain ⟨node, hnode, -⟩ := SolutionSpace.nodeOrUnknown_ok h.indexed hlevels
    have hscore := SolutionSpace.nodeOrUnknown_score hnode
    obtain ⟨score, hcertified⟩ := certified?_ok fun own hown => h.small id own (hscore ▸ hown)
    obtain ⟨release, hrelease⟩ := release_succeeds h.capable hid
    dsimp only
    rw [Outcome.of_eq, hlevels, ok_bind, hnode, ok_bind, hcertified, ok_bind, hrelease, map_ok]
    exact ⟨_, rfl⟩

/-! ## Beginnings -/

/-- Everything that a run prepares before it checks anything. -/
def setup (a : Anonymizer) (d : Dataset) (surroundings : Surroundings) :
    Except Failure (Checker × Lattice × Search) := do
  let checker ← a.checker d surroundings.order
  let lattice ← Lattice.ofBounds d.minLevels d.maxLevels
  let search ← Search.ofSettings a.settings.search surroundings.entropy
  return (checker, lattice, search)

theorem anonymize_setup (a : Anonymizer) (d : Dataset) (surroundings : Surroundings) :
    a.anonymize d surroundings = a.setup d surroundings >>= fun p =>
      a.conclude p.2.2 surroundings.clock p.1 p.2.1 := by
  rw [anonymize_eq, setup]
  cases a.checker d surroundings.order with
  | error failure => rfl
  | ok c =>
    cases Lattice.ofBounds d.minLevels d.maxLevels with
    | error failure => rfl
    | ok l => cases Search.ofSettings a.settings.search surroundings.entropy <;> rfl

/-- The checker of valid settings can be created, unless it misses sensitive values. -/
theorem checker_cases {a : Anonymizer}
    (h : ∀ choice ∈ a.settings.criteria, Settings.criterionFault? choice = none) {d : Dataset}
    (hd : d.WellFormed) (order : IterationOrder) :
    ¬a.settings.LacksSensitive d ∧ (∃ c, a.checker d order = .ok c) ∨
      a.settings.LacksSensitive d ∧ a.checker d order = .error .diversityWithoutSensitive := by
  obtain ⟨metric, hmetric⟩ := Metric.exists_prepare hd (.ofChoice order a.settings.metric)
  refine (Settings.prepare_criteria h d).imp (fun ⟨hnot, cs, hcs⟩ => ⟨hnot, ?_⟩)
    fun ⟨hlacks, herror⟩ => ⟨hlacks, ?_⟩
  · unfold checker Checker.create
    rw [hcs, ok_bind, hmetric, ok_bind]
    exact ⟨_, rfl⟩
  · unfold checker Checker.create
    rw [herror, error_bind]

/-- With accepted settings the preparations fail for two reasons only. -/
theorem setup_cases {a : Anonymizer} (h : a.settings.validate = .ok ()) {d : Dataset}
    (hd : d.Accepted) (surroundings : Surroundings) :
    ¬a.settings.LacksSensitive d ∧ Lattice.combinations d.minLevels d.maxLevels < 2 ^ 64 ∧
        (∃ p, a.setup d surroundings = .ok p) ∨
      a.settings.LacksSensitive d ∧
        a.setup d surroundings = .error .diversityWithoutSensitive ∨
      2 ^ 64 ≤ Lattice.combinations d.minLevels d.maxLevels ∧
        a.setup d surroundings = .error .latticeTooLarge := by
  obtain ⟨hfaults, hsearch⟩ := Settings.validate_ok h
  unfold setup
  rcases checker_cases hfaults hd.wellFormed surroundings.order with ⟨hnot, c, hc⟩ | ⟨hlacks, herror⟩
  · rw [hc, ok_bind]
    rcases Lattice.ofBounds_cases hd.ordered with ⟨hlt, l, hl⟩ | ⟨hge, herror⟩
    · obtain ⟨s, hs⟩ := Search.exists_ofSettings hsearch surroundings.entropy
      exact Or.inl ⟨hnot, hlt, (c, l, s), by rw [hl, ok_bind, hs]; rfl⟩
    · exact Or.inr (Or.inr ⟨hge, by rw [herror, error_bind]⟩)
  · exact Or.inr (Or.inl ⟨hlacks, by rw [herror, error_bind]⟩)

/-- A run that has been prepared succeeds. A private walk needs scores, and small enough ones. -/
theorem conclude_succeeds {a : Anonymizer} {d : Dataset} (hd : d.Accepted)
    (hwalk : a.settings.search.method = .privateWalk →
      a.settings.metric.countsScores = true ∧ d.Addressable) {surroundings : Surroundings}
    {c : Checker} {l : Lattice} {s : Search} (h : a.setup d surroundings = .ok (c, l, s))
    (clock : Nat → Nat) : ∃ result, a.conclude s clock c l = .ok result := by
  obtain ⟨_, hc, h⟩ := bind_eq_ok.mp h
  obtain ⟨_, hl, h⟩ := bind_eq_ok.mp h
  obtain ⟨_, hs, h⟩ := bind_eq_ok.mp h
  cases h
  have hscores : s.plan.objective = .score → c.Scores := fun ho => by
    obtain ⟨hcounts, haddressable⟩ := hwalk ((Search.new_ok hs).2 ho)
    exact Checker.scores_create haddressable hcounts hc
  have hcapable := Checker.capable_create hd.wellFormed hc (hd.wellFormed.covers hl)
  obtain ⟨proved, hproved, hend⟩ := Search.traverse_succeeds hcapable
    (congrArg Progress.objective (Search.new_ok hs).1) hscores (Search.optimum_ofSettings hs) clock
  obtain ⟨outcome, houtcome⟩ := Outcome.ofEnd_succeeds hend
  exact ⟨_, by rw [conclude, hproved, ok_bind, houtcome, map_ok]⟩

end Anonymizer
end Recoding
