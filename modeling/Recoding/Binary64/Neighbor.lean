import Recoding.Binary64.Exact

/-!
# Neighbouring doubles

Stepping the magnitude by one steps to the adjacent double. Both zeros count as one
number, so the step up from either of them is the smallest subnormal number.
-/

namespace Recoding.Binary64

/-- The least double above `x`. NaN and positive infinity have none and stay. -/
def nextUp (x : Float) : Float :=
  if x.isNaN || (!isNegative x && magnitude x == infiniteMagnitude) then x
  else if magnitude x = 0 then ofMagnitude false 1
  else if isNegative x then ofMagnitude true (magnitude x - 1)
  else ofMagnitude false (magnitude x + 1)

/-- The greatest double below `x`. NaN and negative infinity have none and stay. -/
def nextDown (x : Float) : Float := -nextUp (-x)

/-- The distance from the absolute value of `x` to the next larger double. -/
def ulp (x : Float) : Float :=
  if x.isNaN then x
  else if magnitude x = infiniteMagnitude then infinity false
  else
    let biased := magnitude x / 2 ^ 52
    if 52 < biased then ofMagnitude false ((biased - 52) * 2 ^ 52)
    else if biased = 0 then ofMagnitude false 1
    else ofMagnitude false (2 ^ (biased - 1))

end Recoding.Binary64
