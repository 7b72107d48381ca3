import Recoding.Lattice.Space
import Recoding.Search.Settings

/-!
# The progress of a search

What every search keeps track of: its phase, its limits, the checks it has made and the
best transformation it has seen.
-/

namespace Recoding

inductive Phase where
  | initialized
  | traversing
  | terminated
deriving DecidableEq, Repr

/-- The bookkeeping of a search. -/
structure Progress where
  phase : Phase
  /-- The best transformation so far. -/
  optimum : Option Nat
  objective : Objective
  stepLimit : Option Nat
  timeLimit : Option Nat
  /-- Whether the clock is running. -/
  started : Bool
  /-- The transformations checked since the start. -/
  checks : Nat
deriving Repr

namespace Progress

def initial (settings : SearchSettings) (objective : Objective) : Progress :=
  ⟨.initialized, none, objective, settings.stepLimit, settings.timeLimit, false, 0⟩

/-- Starts the clock and counts checks anew. -/
def start (p : Progress) : Progress :=
  { p with phase := .traversing, started := true, checks := 0 }

def terminate (p : Progress) : Progress := { p with phase := .terminated }

/-- Whether a limit is reached, so many milliseconds after the start. -/
def mustStop (p : Progress) (elapsed : Nat) : Bool :=
  p.stepLimit.any (· ≤ p.checks) || (p.started && p.timeLimit.any (· ≤ elapsed))

/-- Whether the space already holds what the search needs to know about a transformation. -/
def isSettled (p : Progress) (space : SolutionSpace) (id : Nat) : Bool :=
  space.has id Mark.checked &&
    (p.objective == .loss || (space.node? id).any (·.score.isSome))

/-- The order of two exact scores, a missing one being the lowest. -/
def compareScores : Option Rat → Option Rat → Ordering
  | none, none => .eq
  | none, some _ => .lt
  | some _, none => .gt
  | some a, some b => if a < b then .lt else if b < a then .gt else .eq

/-- The order of two nodes by the objective: the greater one is better. -/
def compareBy (objective : Objective) (candidate current : Node) : Ordering :=
  match objective with
  | .score => compareScores candidate.score current.score
  | .loss =>
    match candidate.loss, current.loss with
    | some c, some o => o.compare c
    | _, _ => .eq

/-- Whether a node is better than the current optimum; of two equally good nodes the less
generalized one is. -/
def isBetter (objective : Objective) (candidate current : Node) : Bool :=
  (compareBy objective candidate current).then (compare current.level candidate.level) == .gt

/-- Replaces the optimum by a checked anonymous transformation that is better. -/
def track (p : Progress) (space : SolutionSpace) (id : Nat) : Progress :=
  match space.node? id with
  | none => p
  | some candidate =>
    if space.has id Mark.checked && space.has id Mark.anonymous then
      match p.optimum >>= space.node? with
      | none => { p with optimum := some id }
      | some current =>
        if isBetter p.objective candidate current then { p with optimum := some id } else p
    else p

end Progress
end Recoding
