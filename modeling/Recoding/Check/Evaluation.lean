import Recoding.Loss.Basic

/-!
# Evaluations of transformations
-/

namespace Recoding

inductive Objective where
  /-- The information loss. -/
  | loss
  /-- The exact score, which is computed besides the loss. -/
  | score
deriving DecidableEq, Repr

inductive ScanKind where
  /-- Every record. -/
  | full
  /-- The classes of the previous grouping. -/
  | representative
  /-- The classes of a snapshot. -/
  | snapshot
deriving DecidableEq, Repr

structure Evaluation where
  /-- Whether every criterion accepts every class. -/
  anonymous : Bool
  loss : Loss
  lowerBound : Option Loss
  score : Option Rat
  /-- The number of classes. -/
  classes : Nat
  kind : ScanKind
deriving Repr

end Recoding
