import Recoding.Check.Counters
import Recoding.Report.Element

/-!
# Reports

The summary of one anonymization, for whoever has to certify it.
-/

namespace Recoding

structure Report where
  /-- The levels of the chosen transformation. -/
  levels : Option (List Nat)
  informationLoss : Option Float
  /-- The score of the chosen transformation, if it was computed. -/
  score : Option Float
  /-- Whether the chosen transformation satisfies every criterion. -/
  anonymous : Bool
  /-- Whether the search proved that nothing is better. -/
  optimal : Bool
  criteria : List Element
  metric : Element
  search : Element
  counters : Counters
deriving Repr

end Recoding
