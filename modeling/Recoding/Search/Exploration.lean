import Recoding.Check.Checker
import Recoding.Random.Source
import Recoding.Search.Progress

/-!
# Explorations

The state that a running search changes: its progress, the checker, the solution space
and the source of its draws. A failure ends the search and leaves the state as it is.
-/

namespace Recoding

/-- Everything a search works on. -/
structure Exploration where
  progress : Progress
  checker : Checker
  space : SolutionSpace
  source : RandomSource

abbrev Exploring := ExceptT Failure (StateM Exploration)

namespace Exploration

def run {α : Type} (m : Exploring α) (x : Exploration) : Except Failure α × Exploration :=
  StateT.run (ExceptT.run m) x

def onSpace (f : SolutionSpace → Except Failure SolutionSpace) : Exploring Unit := do
  let x ← get
  match f x.space with
  | .error e => throw e
  | .ok space => set { x with space }

def onProgress (f : Progress → Progress) : Exploring Unit :=
  modify fun x => { x with progress := f x.progress }

def count (f : Counters → Counters) : Exploring Unit :=
  modify fun x => { x with checker := x.checker.count f }

/-- Checks a transformation, unless everything needed is known about it. -/
def assureChecked (id : Nat) : Exploring Unit := do
  let x ← get
  if x.progress.isSettled x.space id then return
  let (outcome, checker, space) := x.checker.check x.space id false x.progress.objective
  set { x with checker, space }
  match outcome with
  | .error e => throw e
  | .ok _ => onProgress fun p => { p with checks := p.checks + 1 }

def track (id : Nat) : Exploring Unit :=
  modify fun x => { x with progress := x.progress.track x.space id }

def finish (proved : Bool) : Exploring Bool := do
  onProgress Progress.terminate
  return proved

end Exploration
end Recoding
