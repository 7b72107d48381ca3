import Recoding.Binary64.Exact
import Recoding.Hierarchy.Basic

/-!
# Domain shares

The share of a code is the fraction of the attribute's values that it stands for. The
numbers of values are kept exactly; a share is rounded once, when it is asked for.
-/

namespace Recoding

/-- How many values each code of each level stands for. -/
structure DomainShare where
  /-- The number of values of the attribute. -/
  values : Nat
  /-- The number of values behind each code, level by level. -/
  counts : List (List (Nat × Nat))
deriving DecidableEq, Repr

namespace DomainShare

/-- The codes of a list with their numbers of occurrences, in order of appearance. -/
def tally (codes : List Nat) : List (Nat × Nat) :=
  codes.eraseDups.map fun code => (code, codes.count code)

def ofHierarchy (h : Hierarchy) : DomainShare where
  values := h.domainSize
  counts := (List.range h.height).map fun level =>
    tally (h.codes.toList.filterMap fun row => row[level]?)

/-- The number of values as a double; an attribute without values counts as one value. -/
def size (s : DomainShare) : Float := Binary64.ofCount (max s.values 1)

/-- The number of values that a code of a level stands for, if the level has it. -/
def count? (s : DomainShare) (code level : Nat) : Option Nat :=
  (s.counts[level]?.getD []).lookup code

/-- The share of a code of a level; an unknown code counts as the whole domain. -/
def share (s : DomainShare) (code level : Nat) : Float :=
  match s.count? code level with
  | some n => Binary64.ofCount n / s.size
  | none => 1.0

/-- The least number of values behind any code of a level. -/
def minCount? (s : DomainShare) (level : Nat) : Option Nat :=
  ((s.counts[level]?.getD []).map Prod.snd).min?

/-- The smallest share of any code of a level, and the whole domain where there is none. -/
def minShare (s : DomainShare) (level : Nat) : Float :=
  match s.minCount? level with
  | some n => Binary64.ofCount n / s.size
  | none => 1.0

/-- The product of the leaf shares of all attributes, the smallest product there is. -/
def leafProduct (shares : List DomainShare) : Float :=
  Binary64.product (shares.map fun s => 1.0 / s.size)

/-- The product of the shares of a generalized record, on a logarithmic scale from 0 for
leaves to 1 for whole domains. `floor` is the product for leaves; without any shares to
multiply it is 1 and nothing is lost. `none` if a code or level is missing. -/
def loss? (shares : List DomainShare) (floor : Float) (levels key : List Nat) :
    Option Float :=
  let rec factors : List DomainShare → List Nat → List Nat → Option (List Float)
    | [], _, _ => some []
    | s :: shares, code :: key, level :: levels =>
      (factors shares key levels).map (s.share code level :: ·)
    | _ :: _, _, _ => none
  (factors shares key levels).map fun fs =>
    let lowest := floor.log
    if lowest == 0.0 then 0.0
    else Binary64.clampUnit (((Binary64.product fs).log - lowest) / -lowest)

end DomainShare
end Recoding
