import Recoding.Binary64.Nearest
import Recoding.Binary64.Neighbor
import Recoding.Failure

/-!
# Certified conversion of exact scores

Scores are exact rationals. The random choice between candidates works on doubles, so a
score is converted once, and the conversion is checked against the exact value again.
-/

namespace Recoding

/-- The double nearest to an exact score, at most one unit in the last place away. -/
def certified (score : Rat) : Except Failure Float :=
  match Binary64.nearest? score with
  | none => .error (.scoreTooLarge score)
  | some x =>
    match Binary64.toRat? x, Binary64.toRat? (Binary64.ulp x) with
    | some value, some tolerance =>
      if tolerance < (score - value).abs then .error (.scoreTooFar score) else .ok x
    | _, _ => .error (.scoreTooLarge score)

end Recoding
