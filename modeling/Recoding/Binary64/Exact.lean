import Recoding.Naturals

/-!
# Doubles as exact numbers

The bits of a double below its sign, its *magnitude*, count the doubles from zero
upwards. They split into a natural significand and a power of two, so every finite
double is read here as the rational it denotes, and the total order of all doubles
is the order of an integer key.
-/

namespace Recoding.Binary64

/-- The bits below the sign, which grow with the absolute value. -/
def magnitude (x : Float) : Nat := x.toBits.toNat % 2 ^ 63

/-- Whether the sign bit is set; this tells `-0` from `0`. -/
def isNegative (x : Float) : Bool := decide (2 ^ 63 ≤ x.toBits.toNat)

def ofMagnitude (negative : Bool) (m : Nat) : Float :=
  Float.ofBits (UInt64.ofNat (if negative then 2 ^ 63 + m else m))

/-- The magnitude of infinity; every smaller one is finite. -/
def infiniteMagnitude : Nat := 0x7ff * 2 ^ 52

/-- The integer significand: subnormal numbers have no implicit leading bit. -/
def significand (m : Nat) : Nat :=
  if m / 2 ^ 52 = 0 then m % 2 ^ 52 else 2 ^ 52 + m % 2 ^ 52

def exponent (m : Nat) : Int := max (m / 2 ^ 52 : Nat) 1 - 1075

def scaled (n : Nat) : Int → Rat
  | .ofNat k => ((n * 2 ^ k : Nat) : Int)
  | .negSucc k => mkRat n (2 ^ (k + 1))

def magnitudeValue (m : Nat) : Rat := scaled (significand m) (exponent m)

/-- The rational that a finite double denotes; NaN and the infinities have none. -/
def toRat? (x : Float) : Option Rat :=
  if magnitude x < infiniteMagnitude then
    let value := magnitudeValue (magnitude x)
    some (if isNegative x then -value else value)
  else none

/-- The key of the total order: negative numbers before positive ones, `-0` before `0`. -/
def orderKey (x : Float) : Int :=
  if isNegative x then -(magnitude x : Int) - 1 else magnitude x

/-- The total order on all doubles, in which `-0` is below `0` and NaN above infinity. -/
def totalCompare (x y : Float) : Ordering := compare (orderKey x) (orderKey y)

def ofCount (n : Nat) : Float := Float.ofNat n

/-- The larger operand. A NaN gives way to the other operand, and of two zeros the
second counts. -/
def larger (x y : Float) : Float := if y.isNaN || y < x then x else y

/-- The smaller operand. A NaN gives way to the other operand, and of two zeros the
second counts. -/
def smaller (x y : Float) : Float := if y.isNaN || x < y then x else y

def infinity (negative : Bool) : Float := ofMagnitude negative infiniteMagnitude

/-- The sum in list order. It starts from `-0`, so that a sum of negative zeros stays one. -/
def sum (xs : List Float) : Float := xs.foldl (· + ·) (-0.0)

def product (xs : List Float) : Float := xs.foldl (· * ·) 1.0

/-- The nearest point of `[0, 1]`; NaN stays NaN. -/
def clampUnit (x : Float) : Float :=
  if x < 0.0 then 0.0 else if 1.0 < x then 1.0 else x

end Recoding.Binary64
