import Recoding.Binary64.Exact

/-!
# Information losses

A loss has one value per dimension and one number, folded from them, by which losses are
compared. The comparison is total, so it also orders NaN.
-/

namespace Recoding

/-- How the values of the dimensions are folded into one number. -/
inductive Aggregate where
  | sum
  | maximum
  | arithmeticMean
  /-- The geometric mean of all values plus one, minus one: zeros are allowed. -/
  | geometricMean
deriving DecidableEq, Repr, Inhabited

namespace Aggregate

def title : Aggregate → String
  | sum => "Sum"
  | maximum => "Maximum"
  | arithmeticMean => "Arithmetic mean"
  | geometricMean => "Geometric mean"

/-- Folds values in list order; no values give zero. -/
def fold (a : Aggregate) (values : List Float) : Float :=
  if values.isEmpty then 0.0
  else
    let size := Binary64.ofCount values.length
    match a with
    | sum => Binary64.sum values
    | maximum => values.foldl Binary64.larger (Binary64.infinity true)
    | arithmeticMean => Binary64.sum values / size
    | geometricMean => (Binary64.sum (values.map fun v => (v + 1.0).log) / size).exp - 1.0

end Aggregate

structure Loss where
  values : List Float
  aggregate : Aggregate
  /-- The values folded into one number. -/
  value : Float
deriving Repr

namespace Loss

def ofValues (aggregate : Aggregate) (values : List Float) : Loss :=
  ⟨values, aggregate, aggregate.fold values⟩

def scalar (x : Float) : Loss := ofValues .sum [x]

/-- The total order of losses by their numbers. -/
def compare (l other : Loss) : Ordering := Binary64.totalCompare l.value other.value

/-- Equality of all parts as numbers: zeros are equal, and NaN equals nothing. -/
def same (l other : Loss) : Bool :=
  l.values.length == other.values.length &&
    (l.values.zip other.values).all (fun (x, y) => x == y) &&
    l.aggregate == other.aggregate && l.value == other.value

end Loss

/-- A loss with a bound below it, where the metric has one. -/
structure BoundedLoss where
  loss : Loss
  lowerBound : Option Loss
deriving Repr

/-- A loss that is its own bound. -/
def BoundedLoss.exact (loss : Loss) : BoundedLoss := ⟨loss, some loss⟩

end Recoding
