/-!
# Search settings
-/

namespace Recoding

inductive SearchMethod where
  /-- From the bottom, in the order of lower bounds. -/
  | bestFirst
  /-- From the top, by differentially private draws. -/
  | privateWalk
deriving DecidableEq, Repr, Inhabited

def SearchMethod.title : SearchMethod → String
  | bestFirst => "Best-first search"
  | privateWalk => "Data-dependent differentially private search"

structure SearchSettings where
  method : SearchMethod
  /-- The number of steps of a private walk, which needs one. -/
  expansionLimit : Option Nat
  /-- The largest number of checked transformations. -/
  stepLimit : Option Nat
  /-- The longest time in milliseconds. -/
  timeLimit : Option Nat
  /-- The whole privacy budget of a private walk. -/
  epsilon : Float
  /-- Whether draws come from the seed. -/
  deterministic : Bool
  seed : Nat
deriving Repr

def SearchSettings.standard : SearchSettings :=
  ⟨.bestFirst, none, none, none, 0.1, false, 0⟩

end Recoding
