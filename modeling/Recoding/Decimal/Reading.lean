import Recoding.Binary64.Nearest
import Recoding.Decimal.Shortest

/-!
# Reading decimals
-/

namespace Recoding.Decimal

def ofDigits (digits : List Char) : Nat :=
  digits.foldl (fun n c => 10 * n + (c.toNat - '0'.toNat)) 0

/-- The double nearest to `digits * 10 ^ scale`, which may be infinite. Far outside the
range of doubles the power of ten is not computed. -/
def toDouble (negative : Bool) (digits : Nat) (scale : Int) : Float :=
  let order : Int := digitCount digits + scale
  if digits = 0 ∨ order < -400 then Binary64.ofMagnitude negative 0
  else if 400 < order then Binary64.infinity negative
  else
    let q := tenPow scale * digits
    match Binary64.nearest? (if negative then -q else q) with
    | some x => x
    | none => Binary64.infinity negative

end Recoding.Decimal
