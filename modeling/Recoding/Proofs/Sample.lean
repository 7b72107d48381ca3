import Recoding.Anonymization
import Recoding.Proofs.Dataset.Accepted

/-!
# A sample

Two records that differ at level 0 and share their code at level 1, under 2-anonymity: the
bottom violates it and the top satisfies it.
-/

namespace Recoding.Sample

def hierarchy : Hierarchy := ⟨"value", 2, #[#[0, 2], #[1, 2]]⟩

theorem hierarchy_accepted : hierarchy.Accepted := ⟨"value", 2, [[0, 2], [1, 2]], rfl⟩

def table : CodeTable := .tabulate 2 1 fun row _ => row

def dataset : Dataset := ⟨table, [hierarchy], [0], [1], none, none, none⟩

theorem dataset_accepted : dataset.Accepted :=
  .ofTable (show ∀ h ∈ [hierarchy], h.Accepted by simp [hierarchy_accepted])
    (show Dataset.ofTable table [hierarchy] [] = .ok dataset from rfl)

def diagnosed : Dataset := { dataset with sensitive := some #[5, 6] }

theorem diagnosed_accepted : diagnosed.Accepted :=
  .withSensitive dataset_accepted (show dataset.withSensitive [5, 6] = .ok diagnosed from rfl)

def lattice : Lattice := ⟨[⟨0, 1, by decide⟩]⟩

theorem lattice_eq : Lattice.ofBounds dataset.minLevels dataset.maxLevels = .ok lattice := rfl

def keeping : CheckerSettings := ⟨⟨.all, 0.0, 200, 1.0, 1.0⟩, 1, 1⟩

def forgetting : CheckerSettings := ⟨⟨.none, 0.0, 0, 0.0, 0.0⟩, 2, 1⟩

def checker (settings : CheckerSettings) : Checker where
  dataset := dataset
  criteria := [.kAnonymity 2]
  metric := .height .sum
  tracks := false
  workers := max 1 settings.workers
  minRecords := max 1 settings.minRecords
  history := History.empty settings.history 2
  last := none
  counters := Counters.zero

theorem checker_eq (settings : CheckerSettings) :
    Checker.create dataset [.kAnonymity 2] (.height .sum) settings = .ok (checker settings) := rfl

/-- A new checker with a metric that gives no scores. -/
def measuring : Checker :=
  { checker keeping with
    metric := .normalizedEntropy .sum .firstSeen
      (some ⟨(Metric.entropyLosses? dataset .firstSeen).getD [], dataset.shares⟩) }

theorem measuring_eq : Checker.create dataset [.kAnonymity 2]
    (.ofChoice .firstSeen (.normalizedEntropy .sum)) keeping = .ok measuring := rfl

def anonymizer : Anonymizer := ⟨{ Settings.standard with
  criteria := [.kAnonymity 2], history := keeping.history, minRecords := keeping.minRecords }⟩

def forgetful : Anonymizer := ⟨{ anonymizer.settings with
  history := forgetting.history, workers := forgetting.workers }⟩

def permissive : Anonymizer := ⟨{ anonymizer.settings with criteria := [.kAnonymity 1] }⟩

def surroundings : Surroundings := ⟨fun _ => 0, .ofSeed 0, .firstSeen⟩

def search : Search := ⟨.bestFirst, .initial .standard .loss, .ofSeed 0⟩

theorem search_eq : Search.ofSettings .standard (.ofSeed 0) = .ok search := rfl

def walking : SearchSettings := { SearchSettings.standard with
  method := .privateWalk, expansionLimit := some 5, epsilon := 1.0, deterministic := true }

/-- The budget of each of its steps. -/
def perStep : Float := (budgetPerStep 1.0 (some 5)).toOption.getD 0.0

theorem perStep_eq : budgetPerStep 1.0 (some 5) = .ok perStep := by
  have hsome : (budgetPerStep 1.0 (some 5)).toOption.isSome = true := by decide +kernel
  unfold perStep
  cases h : budgetPerStep 1.0 (some 5) with
  | error failure =>
    rw [h] at hsome
    cases hsome
  | ok budget => rfl

def walk : Search := ⟨.privateWalk 1.0 perStep 5, .initial walking .score, .ofSeed 0⟩

theorem walk_eq : Search.ofSettings walking (.ofSeed 0) = .ok walk := by
  have hbudget : budgetPerStep walking.epsilon walking.expansionLimit = .ok perStep := perStep_eq
  unfold Search.ofSettings
  rw [hbudget]
  rfl

def walker : Anonymizer := ⟨{ anonymizer.settings with search := walking }⟩

/-- A best-first search for diversity, which needs sensitive values. -/
def diverse : Anonymizer := ⟨{ anonymizer.settings with criteria := [.distinctDiversity 2] }⟩

theorem accepted_of_isSome {settings : Settings} (h : settings.validate.toOption.isSome = true) :
    Anonymizer.ofSettings settings = .ok ⟨settings⟩ := by
  unfold Anonymizer.ofSettings
  cases hvalidate : settings.validate with
  | error failure =>
    rw [hvalidate] at h
    cases h
  | ok _ => rfl

theorem walker_eq : Anonymizer.ofSettings walker.settings = .ok walker :=
  accepted_of_isSome (by decide +kernel)

theorem diverse_eq : Anonymizer.ofSettings diverse.settings = .ok diverse :=
  accepted_of_isSome (by decide +kernel)

def wide : Dataset := ⟨.tabulate 1 64 fun _ _ => 0, List.replicate 64 hierarchy,
  List.replicate 64 0, List.replicate 64 1, none, none, none⟩

theorem wide_accepted : wide.Accepted :=
  .ofTable (show ∀ h ∈ List.replicate 64 hierarchy, h.Accepted from
      fun _ hh => List.eq_of_mem_replicate hh ▸ hierarchy_accepted)
    (show Dataset.ofTable wide.table (List.replicate 64 hierarchy) [] = .ok wide from rfl)

end Recoding.Sample
