import Recoding.Interval

/-!
# Splitting a privacy budget

The budget of a search is split evenly over its steps. The quotient is taken in interval
arithmetic and its lower end is spent, so the steps together never exceed the budget.
-/

namespace Recoding

def budgetPerStep (epsilon : Float) (steps : Option Nat) : Except Failure Float :=
  match steps with
  | none => .error .missingExpansionLimit
  | some n =>
    if n = 0 then .error .zeroExpansionLimit
    else if !epsilon.isFinite || epsilon ≤ 0.0 then .error (.searchBudget epsilon)
    else do
      let quotient ← Interval.div (← Interval.point epsilon) (← Interval.ofNat n)
      return quotient.lower

end Recoding
