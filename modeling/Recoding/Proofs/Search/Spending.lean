import Recoding.Proofs.Random.Budget
import Recoding.Proofs.Sample
import Recoding.Proofs.Search.Course

/-!
# Spending of the privacy budget

A traversal draws at most once in each of its steps, and each draw is counted and spends the
budget of one step. So no traversal spends more than the budget that its steps were given.
-/

namespace Recoding

/-- The counters of what a search does, whatever its checks regroup. -/
def Counters.ofSearch (c : Counters) : Counters := { Counters.zero with
  checks := c.checks
  nodesPruned := c.nodesPruned
  mechanismDraws := c.mechanismDraws }

namespace Checker

theorem ofSearch_countScan (c : Checker) (kind : ScanKind) :
    (c.countScan kind).counters.ofSearch = c.counters.ofSearch := by
  cases kind <;> rfl

theorem ofSearch_plan (c : Checker) (levels : List Nat) (fromRecords : Bool) :
    (c.plan levels fromRecords).2.counters.ofSearch = c.counters.ofSearch := by
  cases fromRecords with
  | true => rfl
  | false =>
    show (c.counters.lookup _).ofSearch = _
    unfold Counters.lookup
    split_ifs <;> rfl

/-- A check of a known transformation counts as one, whatever comes of it. -/
theorem ofSearch_check {space : SolutionSpace} {id : Nat} {levels : List Nat}
    (hl : space.lattice.levelsOf id = .ok levels) (c : Checker) (fromRecords : Bool)
    (objective : Objective) :
    (c.check space id fromRecords objective).2.1.counters.ofSearch =
      c.counters.check.ofSearch := by
  have hprepared : (c.prepared levels fromRecords).counters.ofSearch =
      c.counters.check.ofSearch :=
    (ofSearch_countScan _ _).trans (ofSearch_plan (c.count Counters.check) levels fromRecords)
  rw [check_eq hl, ← hprepared]
  split
  · rfl
  · split
    · rfl
    · unfold keep
      dsimp only
      split_ifs <;> rfl

theorem draws_check (c : Checker) (space : SolutionSpace) (id : Nat) (fromRecords : Bool)
    (objective : Objective) : (c.check space id fromRecords objective).2.1.counters.mechanismDraws =
      c.counters.mechanismDraws := by
  cases hlevels : space.lattice.levelsOf id with
  | error failure => rw [check_unknown hlevels]
  | ok levels =>
    have hdraws := congrArg Counters.mechanismDraws (ofSearch_check hlevels c fromRecords objective)
    exact hdraws

end Checker

open Exploration

namespace PrivateWalk

def draws (x : Exploration) : Nat := x.checker.counters.mechanismDraws

theorem steady_draws (n : Nat) : Steady fun x => draws x = n where
  visited _ := keeps_onSpace fun _ _ h _ => h
  mark _ _ _ := keeps_onSpace fun _ _ h _ => h
  assureChecked id := keeps_check (fun x h =>
    (x.checker.draws_check x.space id false x.progress.objective).trans h) fun _ _ h => h

section
variable (clock : Nat → Nat) (epsilon : Float) (steps : Nat) (x : Exploration)

theorem draws_course (time pivot : Nat) (pool : Pool) :
    draws (course clock epsilon steps time pivot pool x).last =
      draws x + (course clock epsilon steps time pivot pool x).drawn.length := by
  induction steps generalizing time pivot pool x with
  | zero => rfl
  | succ steps ih =>
    have hexpanded := keeps_expand (steady_draws (draws x)) pivot pool
    unfold course
    rcases hturn : turn epsilon pivot pool x with ⟨ending, y⟩ | ⟨next, last, y⟩
    · rcases turn_ended hturn with
        ⟨failure, -, hexpand⟩ | ⟨-, last, z, source, hexpand, rfl, -⟩
      · exact hexpanded.of_run hexpand rfl
      · have hz : draws z = draws x := hexpanded.of_run hexpand rfl
        exact hz
    · obtain ⟨z, source, hexpand, -, rfl⟩ := turn_drawn hturn
      have hz : draws z = draws x := hexpanded.of_run hexpand rfl
      have hdrawn : draws { z with
          checker := z.checker.count Counters.draw
          progress := z.progress.track z.space next
          source } = draws x + 1 := congrArg (· + 1) hz
      dsimp only
      split_ifs
      · exact hdrawn
      · rw [ih, hdrawn, List.length_cons]
        omega

theorem draws_courseFromTop : draws (courseFromTop clock epsilon steps x).last =
    draws x + (courseFromTop clock epsilon steps x).drawn.length := by
  have hkept := (steady_draws (draws x)).assureChecked x.space.lattice.top
  rcases courseFromTop_cases clock epsilon steps (x := x) rfl with
    ⟨failure, y, hrun, h⟩ | ⟨y, hrun, -, h⟩ <;> rw [h]
  · exact hkept.of_run hrun rfl
  · rw [draws_course]
    have hy : draws y = draws x := hkept.of_run hrun rfl
    exact congrArg (· + _) hy

end

theorem draws_ended {s : Search} {epsilon perStep : Float} {steps : Nat}
    (hplan : s.plan = .privateWalk epsilon perStep steps) (clock : Nat → Nat) (checker : Checker)
    (space : SolutionSpace) : ∃ m, m ≤ steps ∧
      (s.ended clock checker space).checker.counters.mechanismDraws =
        checker.counters.mechanismDraws + m := by
  refine ⟨_, length_courseFromTop_le clock perStep steps (x := s.begun checker space), ?_⟩
  have hbegun : draws (s.begun checker space) = checker.counters.mechanismDraws := by
    rw [draws, s.begun_counters]
  rw [(ended_course hplan clock checker space).2, ← hbegun]
  exact draws_courseFromTop clock perStep steps (s.begun checker space)

end PrivateWalk

/-- A private walk takes its budget and its steps from its settings. -/
theorem Search.plan_ofSettings {settings : SearchSettings} {entropy : RandomSource} {s : Search}
    (h : Search.ofSettings settings entropy = .ok s) (hmethod : settings.method = .privateWalk) :
    ∃ perStep, budgetPerStep settings.epsilon settings.expansionLimit = .ok perStep ∧
      s.plan = .privateWalk settings.epsilon perStep (settings.expansionLimit.getD 0) := by
  unfold ofSettings at h
  rw [hmethod] at h
  obtain ⟨perStep, hperStep, h⟩ := bind_eq_ok.mp h
  cases h
  exact ⟨perStep, hperStep, rfl⟩

/-- The budget of one step is finite, and taken as often as there are steps it is at most the
whole. Every traversal of a walk with that budget and these steps, whether the search is new or
was used before, draws at most so often, so it spends at most the whole as well. -/
theorem Search.budget_kept {epsilon perStep : Float} {n : Nat}
    (h : budgetPerStep epsilon (some n) = .ok perStep) : ∃ whole part : ℚ,
      Binary64.toRat? epsilon = some whole ∧ Binary64.toRat? perStep = some part ∧
        perStep.isFinite = true ∧ n * part ≤ whole ∧
        ∀ settings entropy new, settings.method = .privateWalk → settings.epsilon = epsilon →
          settings.expansionLimit = some n → Search.ofSettings settings entropy = .ok new →
          ∀ s : Search, s.plan = new.plan → ∀ clock checker space, ∃ m : Nat,
            (s.ended clock checker space).checker.counters.mechanismDraws =
              checker.counters.mechanismDraws + m ∧ m ≤ n ∧ m * part ≤ whole := by
  obtain ⟨whole, part, hwhole, hpart, hpos, hall⟩ := budgetPerStep_mul_le h
  have hfinite : perStep.isFinite = true := by
    rw [Binary64.isFinite_iff]
    by_contra hlt
    rw [Binary64.toRat?, if_neg hlt] at hpart
    cases hpart
  refine ⟨whole, part, hwhole, hpart, hfinite, hall, ?_⟩
  rintro settings entropy new hmethod rfl hlimit hnew s hs clock checker space
  obtain ⟨own, hown, hplan⟩ := Search.plan_ofSettings hnew hmethod
  rw [hlimit, h] at hown
  cases hown
  rw [hlimit, Option.getD_some] at hplan
  obtain ⟨m, hm, hdraws⟩ := PrivateWalk.draws_ended (hs.trans hplan) clock checker space
  refine ⟨m, hdraws, hm, ?_⟩
  rcases le_or_gt part 0 with hle | hgt
  · exact (mul_nonpos_of_nonneg_of_nonpos (Nat.cast_nonneg m) hle).trans hpos.le
  · exact (mul_le_mul_of_nonneg_right (by exact_mod_cast hm) hgt.le).trans hall

open Sample in
/-- A walk of the sample with a budget of one and five steps. -/
theorem Search.budget_kept_sample : ∃ part : ℚ, Binary64.toRat? perStep = some part ∧
    5 * part ≤ 1 ∧ ∃ m : Nat, (walk.ended surroundings.clock (checker keeping)
      (.ofLattice lattice)).checker.counters.mechanismDraws = 0 + m ∧ m ≤ 5 ∧ m * part ≤ 1 := by
  obtain ⟨whole, part, hwhole, hpart, -, hall, hkept⟩ := budget_kept perStep_eq
  have hone : Binary64.toRat? 1.0 = some 1 := by decide +kernel
  rw [hone] at hwhole
  cases hwhole
  exact ⟨part, hpart, hall, hkept walking (.ofSeed 0) walk rfl rfl rfl walk_eq walk rfl
    surroundings.clock (checker keeping) (.ofLattice lattice)⟩

end Recoding
