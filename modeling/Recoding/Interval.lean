import Recoding.Binary64.Neighbor
import Recoding.Failure

/-!
# Interval arithmetic with outward rounding

Every operation steps the computed ends outwards by one double, which absorbs the
rounding error of the operation itself. A quantity that must not be overstated, such as
a share of a privacy budget, is read off the lower end.
-/

namespace Recoding

structure Interval where
  lower : Float
  upper : Float
deriving Repr

namespace Interval

def contains (i : Interval) (x : Float) : Bool := i.lower ≤ x && x ≤ i.upper

/-- Ends of intervals are finite. -/
def checkEnd (x : Float) : Except Failure Unit :=
  if x.isNaN then .error .boundIsNaN
  else if x.isInf then .error .boundIsInfinite
  else .ok ()

/-- The interval with the given ends, the lower one being checked first. -/
def bounded (lower upper : Float) : Except Failure Interval := do
  checkEnd lower
  checkEnd upper
  return ⟨lower, upper⟩

def point (x : Float) : Except Failure Interval := do
  checkEnd x
  return ⟨x, x⟩

/-- The interval that reaches one double beyond `x` on each side. -/
def around (x : Float) : Except Failure Interval := do
  checkEnd x
  bounded (Binary64.nextDown x) (Binary64.nextUp x)

/-- An interval that contains the integer `n`, which is one point if the conversion is exact. -/
def ofNat (n : Nat) : Except Failure Interval :=
  let x := Binary64.ofCount n
  if x.toUInt64.toNat = n ∧ x < 9007199254740992.0 then point x else around x

/-- The widened hull of computed ends, each of which has to be finite. -/
def hull (ends : List Float) : Except Failure Interval := do
  ends.forM checkEnd
  bounded (Binary64.nextDown (ends.foldl Binary64.smaller (Binary64.infinity false)))
    (Binary64.nextUp (ends.foldl Binary64.larger (Binary64.infinity true)))

def add (a b : Interval) : Except Failure Interval :=
  bounded (Binary64.nextDown (a.lower + b.lower)) (Binary64.nextUp (a.upper + b.upper))

def sub (a b : Interval) : Except Failure Interval :=
  bounded (Binary64.nextDown (a.lower - b.upper)) (Binary64.nextUp (a.upper - b.lower))

def mul (a b : Interval) : Except Failure Interval :=
  hull [a.lower * b.lower, a.lower * b.upper, a.upper * b.lower, a.upper * b.upper]

/-- The quotient; a divisor that contains zero is refused. -/
def div (a b : Interval) : Except Failure Interval :=
  if b.contains 0.0 then .error (.divisorContainsZero b.lower b.upper)
  else hull [a.lower / b.lower, a.lower / b.upper, a.upper / b.lower, a.upper / b.upper]

end Interval
end Recoding
