import Recoding.Random.Budget
import Recoding.Search.BestFirst
import Recoding.Search.PrivateWalk

/-!
# Searches

A search with its progress and its source of randomness, which both outlive a traversal.
-/

namespace Recoding

inductive SearchPlan where
  | bestFirst
  /-- The whole budget, the budget of one step, and the number of steps. -/
  | privateWalk (epsilon perStep : Float) (steps : Nat)
deriving Repr

structure Search where
  plan : SearchPlan
  progress : Progress
  source : RandomSource

namespace Search

/-- The search with the given settings. Draws that are not deterministic come from the
given source. -/
def ofSettings (settings : SearchSettings) (entropy : RandomSource) : Except Failure Search :=
  match settings.method with
  | .bestFirst => .ok ⟨.bestFirst, .initial settings .loss, entropy⟩
  | .privateWalk => do
    let perStep ← budgetPerStep settings.epsilon settings.expansionLimit
    let source := if settings.deterministic then RandomSource.ofSeed settings.seed else entropy
    return ⟨.privateWalk settings.epsilon perStep (settings.expansionLimit.getD 0),
      .initial settings .score, source⟩

/-- Searches a space with a checker. The answer is whether the optimum is proved to be
the best; the optimum itself is part of the progress. -/
def traverse (s : Search) (clock : Nat → Nat) (checker : Checker) (space : SolutionSpace) :
    Except Failure Bool × Search × Checker × SolutionSpace :=
  let traversal := match s.plan with
    | .bestFirst => BestFirst.traverse clock
    | .privateWalk _ perStep steps => PrivateWalk.traverse clock perStep steps
  let (outcome, x) := Exploration.run traversal ⟨s.progress, checker, space, s.source⟩
  (outcome, { s with progress := x.progress, source := x.source }, x.checker, x.space)

def render (s : Search) : Element :=
  let checks := toString s.progress.checks
  match s.plan with
  | .bestFirst => (Element.titled SearchMethod.bestFirst.title).adding "Checks" checks
  | .privateWalk epsilon perStep steps =>
    ((((Element.titled SearchMethod.privateWalk.title).adding
      "Privacy budget" (Decimal.plain epsilon)).adding
      "Expansion limit" (toString steps)).adding
      "Budget per step" (Decimal.plain perStep)).adding
      "Checks" checks

end Search
end Recoding
