import Recoding.Failure

/-!
# The lattice of transformations

A transformation is one generalization level per attribute. Its identifier is the level
tuple read as a number in a mixed radix, the first attribute being the least
significant digit, so neighbours are found by arithmetic alone.
-/

namespace Recoding

structure Axis where
  low : Nat
  high : Nat
  low_le_high : low ≤ high
deriving DecidableEq, Repr

namespace Axis

def radix (a : Axis) : Nat := a.high - a.low + 1

theorem radix_pos (a : Axis) : 0 < a.radix := Nat.succ_pos _

end Axis

/-- The sum of levels in a 32-bit counter, which wraps around. -/
def levelSum (levels : List Nat) : Nat := levels.sum % 2 ^ 32

theorem levelSum_eq {levels : List Nat} (h : levels.sum < 2 ^ 32) :
    levelSum levels = levels.sum := Nat.mod_eq_of_lt h

/-- All combinations of levels. -/
structure Lattice where
  axes : List Axis
deriving DecidableEq, Repr

namespace Lattice

def volume : List Axis → Nat
  | [] => 1
  | a :: axes => a.radix * volume axes

/-- The identifier of levels counted from the low end of each axis. -/
def encode : List Axis → List Nat → Nat
  | a :: axes, level :: levels => (level - a.low) + a.radix * encode axes levels
  | _, _ => 0

def decode : List Axis → Nat → List Nat
  | [], _ => []
  | a :: axes, id => (a.low + id % a.radix) :: decode axes (id / a.radix)

/-- The axes between the given bounds; identifiers have to fit into 64 bits. `size` is
the number of combinations of the axes before. -/
def axesBetween (size : Nat) : List Nat → List Nat → Except Failure (List Axis)
  | low :: lows, high :: highs =>
    if h : low ≤ high then
      let axis : Axis := ⟨low, high, h⟩
      if size * axis.radix < 2 ^ 64 then
        (axesBetween (size * axis.radix) lows highs).map (axis :: ·)
      else .error .latticeTooLarge
    else .error (.invertedLevels low high)
  | _, _ => .ok []

/-- The lattice between minimum and maximum levels. -/
def ofBounds (minimum maximum : List Nat) : Except Failure Lattice :=
  if minimum.length ≠ maximum.length then
    .error (.extent .levelBounds minimum.length maximum.length)
  else (axesBetween 1 minimum maximum).map Lattice.mk

def dimensions (l : Lattice) : Nat := l.axes.length

/-- The number of transformations. -/
def size (l : Lattice) : Nat := volume l.axes

def minLevels (l : Lattice) : List Nat := l.axes.map Axis.low

def maxLevels (l : Lattice) : List Nat := l.axes.map Axis.high

def bottom (_ : Lattice) : Nat := 0

def top (l : Lattice) : Nat := l.size - 1

/-- The first level outside its axis. `column` is the attribute of the first axis. -/
def outside? (column : Nat) : List Axis → List Nat → Option Failure
  | a :: axes, level :: levels =>
    if level < a.low ∨ a.high < level then some (.levelOutside level column a.low a.high)
    else outside? (column + 1) axes levels
  | _, _ => none

def idOf (l : Lattice) (levels : List Nat) : Except Failure Nat :=
  if levels.length ≠ l.dimensions then
    .error (.extent .levels l.dimensions levels.length)
  else match outside? 0 l.axes levels with
    | some fault => .error fault
    | none => .ok (encode l.axes levels)

def levelsOf (l : Lattice) (id : Nat) : Except Failure (List Nat) :=
  if id < l.size then .ok (decode l.axes id) else .error (.unknownTransformation id)

/-- The identifiers one level below in one attribute. `weight` is the number of
combinations of the axes before, which is what a step along the first axis is worth. -/
def stepsDown (id weight : Nat) : List Axis → List Nat → List Nat
  | a :: axes, level :: levels =>
    let rest := stepsDown id (weight * a.radix) axes levels
    if a.low < level then (id - weight) :: rest else rest
  | _, _ => []

/-- The identifiers one level above in one attribute. -/
def stepsUp (id weight : Nat) : List Axis → List Nat → List Nat
  | a :: axes, level :: levels =>
    let rest := stepsUp id (weight * a.radix) axes levels
    if level < a.high then (id + weight) :: rest else rest
  | _, _ => []

/-- The transformations one step less generalized, in the order of the attributes. -/
def predecessors (l : Lattice) (id : Nat) : Except Failure (List Nat) :=
  (l.levelsOf id).map (stepsDown id 1 l.axes)

/-- The transformations one step more generalized, in the order of the attributes. -/
def successors (l : Lattice) (id : Nat) : Except Failure (List Nat) :=
  (l.levelsOf id).map (stepsUp id 1 l.axes)

end Lattice
end Recoding
