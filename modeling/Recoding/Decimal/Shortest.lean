import Recoding.Binary64.Exact

/-!
# The shortest decimal that reads back

Every real number between the two midpoints around a double reads back as that double.
The grids of powers of ten are tried from the coarsest to the finest, and the first grid
with a point between the midpoints gives the fewest digits. Only the two grid points
next to the double itself can be nearest, so no others are looked at.
-/

namespace Recoding.Decimal

structure Digits where
  digits : Nat
  scale : Int
deriving DecidableEq, Repr, Inhabited

/-- Which of two equally near grid points is taken. -/
inductive Tie where
  | up
  | even
deriving DecidableEq, Repr

def tenPow : Int → Rat
  | .ofNat k => ((10 ^ k : Nat) : Int)
  | .negSucc k => mkRat 1 (10 ^ (k + 1))

/-- The real numbers that round to one positive double. -/
structure Basin where
  value : Rat
  low : Rat
  high : Rat
  /-- Whether the midpoints belong to it: a tie reads back as the even significand. -/
  closed : Bool

/-- The basin of the double with magnitude `m`; below a power of two it is half as wide. -/
def Basin.of (m : Nat) : Basin :=
  let s := Binary64.significand m
  let e := Binary64.exponent m
  let lowStep := if s = 2 ^ 52 ∧ -1074 < e then 1 else 2
  { value := Binary64.magnitudeValue m
    low := Binary64.scaled (4 * s - lowStep) (e - 2)
    high := Binary64.scaled (4 * s + 2) (e - 2)
    closed := s % 2 == 0 }

def Basin.contains (b : Basin) (q : Rat) : Bool :=
  if b.closed then b.low ≤ q && q ≤ b.high else b.low < q && q < b.high

/-- The grid point of `10 ^ scale` nearest to the value among those that read back. -/
def Basin.onGrid? (b : Basin) (tie : Tie) (scale : Int) : Option Digits :=
  let unit := tenPow scale
  let below := (b.value / unit).floor.toNat
  let above := below + 1
  let downs := b.contains (unit * below)
  let ups := b.contains (unit * above)
  let downGap := b.value - unit * below
  let upGap := unit * above - b.value
  let takesUp := upGap < downGap ||
    (upGap == downGap && match tie with | .up => true | .even => below % 2 == 1)
  if downs && ups then some ⟨if takesUp then above else below, scale⟩
  else if downs then some ⟨below, scale⟩
  else if ups then some ⟨above, scale⟩
  else none

def digitCount (n : Nat) : Nat := (Nat.toDigits 10 n).length

/-- The digits without their trailing zeros, which the scale takes over. -/
def Digits.trim (d : Digits) : Digits :=
  let written := Nat.toDigits 10 d.digits
  let zeros := (written.reverse.takeWhile (· == '0')).length
  if d.digits = 0 then ⟨0, 0⟩ else ⟨d.digits / 10 ^ zeros, d.scale + zeros⟩

/-- The fewest digits that read back as the positive finite double with magnitude `m`.
Seventeen significant digits always do, so twenty grids from above the first are enough. -/
def shortest (tie : Tie) (m : Nat) : Digits :=
  let b := Basin.of m
  let start : Int :=
    if 1 ≤ b.value then digitCount b.value.floor.toNat
    else 1 - (digitCount b.value.inv.floor.toNat : Int)
  let grids := (List.range 20).map fun (k : Nat) => start - (k : Int)
  ((grids.findSome? (b.onGrid? tie)).getD default).trim

end Recoding.Decimal
