import Recoding.Binary64.Exact

/-!
# The double nearest to a rational

A positive rational is divided by the power of two that leaves a quotient of 53 bits,
or by the smallest power of two there is. The quotient is rounded to the nearest
integer, a half going to the even one. A quotient that rounds up to 54 bits needs no
special case: as a magnitude it is the first double of the next power of two.
-/

namespace Recoding.Binary64

/-- The integer nearest to `num / den`, a half going to the even neighbour. -/
def roundHalfEven (num den : Nat) : Nat :=
  let quotient := num / den
  let rest := num % den
  if 2 * rest < den ∨ (2 * rest = den ∧ quotient % 2 = 0) then quotient else quotient + 1

/-- Whether a quotient is at least `2 ^ k`. -/
def reaches (num den : Nat) : Int → Bool
  | .ofNat k => den * 2 ^ k ≤ num
  | .negSucc k => den ≤ num * 2 ^ (k + 1)

/-- The binary order `k` of a positive quotient: `2 ^ k ≤ num / den < 2 ^ (k + 1)`. -/
def binaryOrder (num den : Nat) : Int :=
  let guess : Int := (num.log2 : Int) - den.log2
  if reaches num den guess then guess else guess - 1

/-- The magnitude nearest to `num / den`, not bounded by the magnitude of infinity. -/
def nearestMagnitude (num den : Nat) : Nat :=
  if num = 0 then 0
  else
    let unit := max (binaryOrder num den - 52) (-1074)
    let rounded := match unit with
      | .ofNat k => roundHalfEven num (den * 2 ^ k)
      | .negSucc k => roundHalfEven (num * 2 ^ (k + 1)) den
    (unit + 1074).toNat * 2 ^ 52 + rounded

/-- The finite double nearest to `q`, if rounding does not reach infinity. -/
def nearest? (q : Rat) : Option Float :=
  let m := nearestMagnitude q.num.natAbs q.den
  if m < infiniteMagnitude then some (ofMagnitude (decide (q.num < 0)) m) else none

end Recoding.Binary64
