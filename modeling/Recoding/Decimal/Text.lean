import Recoding.Decimal.Shortest

/-!
# Decimal text of doubles

A `Style` lists the choices that a text format leaves open; the digits themselves are
always the shortest that read back.
-/

namespace Recoding.Decimal

structure Style where
  /-- Whole numbers end in `.0`. -/
  wholePoint : Bool
  /-- The positions of the decimal point, counted from the first digit, that are written
  without an exponent; `none` for all positions. -/
  positional : Option (Int × Int)
  /-- What happens when two shortest decimals are equally near. -/
  tie : Tie

def zeros (n : Nat) : String := String.ofList (List.replicate n '0')

/-- Digits with the decimal point after `point` of them, filled up with zeros. -/
def positionalText (style : Style) (written : List Char) (point : Int) : String :=
  let digits := String.ofList written
  if (written.length : Int) ≤ point then
    digits ++ zeros (point - written.length).toNat ++ (if style.wholePoint then ".0" else "")
  else if 0 < point then
    String.ofList (written.take point.toNat) ++ "." ++ String.ofList (written.drop point.toNat)
  else "0." ++ zeros (-point).toNat ++ digits

/-- Digits with the point after the first one and a power of ten. -/
def exponentText (written : List Char) (point : Int) : String :=
  let fraction := written.drop 1
  String.ofList (written.take 1) ++
    (if fraction.isEmpty then "" else "." ++ String.ofList fraction) ++
    "e" ++ toString (point - 1)

/-- The text of a positive finite double, given by its magnitude. -/
def magnitudeText (style : Style) (m : Nat) : String :=
  let d := shortest style.tie m
  let written := Nat.toDigits 10 d.digits
  let point := (written.length : Int) + d.scale
  let plain := match style.positional with
    | none => true
    | some (low, high) => low ≤ point && point ≤ high
  if plain then positionalText style written point else exponentText written point

/-- The text of a double. The sign of zero is kept, the sign of NaN is not. -/
def text (style : Style) (x : Float) : String :=
  let m := Binary64.magnitude x
  if Binary64.infiniteMagnitude < m then "NaN"
  else
    let body :=
      if m = Binary64.infiniteMagnitude then "inf"
      else if m = 0 then (if style.wholePoint then "0.0" else "0")
      else magnitudeText style m
    (if Binary64.isNegative x then "-" else "") ++ body

/-- Values in messages and rendered properties: never an exponent, no `.0` for whole
numbers, and a tie between two shortest decimals goes up. -/
def plainStyle : Style := ⟨false, none, .up⟩

/-- The text of a double in messages and rendered properties. -/
def plain (x : Float) : String := text plainStyle x

/-- The text of an exact number: `n/d` in lowest terms, or `n` when it is whole. -/
def rationalText (q : Rat) : String :=
  if q.den = 1 then toString q.num else toString q.num ++ "/" ++ toString q.den

end Recoding.Decimal
