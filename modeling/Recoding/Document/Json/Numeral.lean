import Recoding.Decimal.Reading
import Recoding.Document.Value

/-!
# JSON numbers

Integers that fit into 64 bits are exact. Any other number is a double: its digits are
taken into a significand as long as that fits into 64 bits, later digits are dropped, and
the significand is multiplied or divided by a power of ten, both being doubles. This is
exact for up to 15 digits and a small exponent.
-/

namespace Recoding.Document.Json

structure Numeral where
  negative : Bool
  whole : List Char
  /-- The digits after the point, if there is one. -/
  fraction : Option (List Char)
  /-- The sign and digits of the exponent, if there is one. -/
  exponent : Option (Bool × List Char)
deriving DecidableEq, Repr

namespace Numeral

def digits? (s : List Char) : Option (List Char × List Char) :=
  let run := s.takeWhile Char.isDigit
  if run.isEmpty then none else some (run, s.dropWhile Char.isDigit)

def fraction? : List Char → Option (Option (List Char) × List Char)
  | '.' :: rest => (digits? rest).map fun (run, rest) => (some run, rest)
  | rest => some (none, rest)

def exponentSign : List Char → Bool × List Char
  | '+' :: rest => (false, rest)
  | '-' :: rest => (true, rest)
  | rest => (false, rest)

def exponent? : List Char → Option (Option (Bool × List Char) × List Char)
  | c :: rest =>
    if c = 'e' ∨ c = 'E' then
      let (negative, rest) := exponentSign rest
      (digits? rest).map fun (run, rest) => (some (negative, run), rest)
    else some (none, c :: rest)
  | [] => some (none, [])

/-- Reads a whole word as a number: no leading zeros, digits on both sides of a point. -/
def ofWord? (word : List Char) : Option Numeral := do
  let (negative, rest) := match word with
    | '-' :: rest => (true, rest)
    | rest => (false, rest)
  let (whole, rest) ← digits? rest
  if whole.length > 1 && whole.head? == some '0' then none
  let (fraction, rest) ← fraction? rest
  let (exponent, rest) ← exponent? rest
  if rest.isEmpty then some ⟨negative, whole, fraction, exponent⟩ else none

/-- Takes digits into a significand as long as it fits into 64 bits; the second part is
the number of digits taken. -/
def takeDigits : Nat → List Char → Nat × Nat
  | significand, [] => (significand, 0)
  | significand, c :: rest =>
    let next := 10 * significand + (c.toNat - '0'.toNat)
    if next < 2 ^ 64 then
      let (significand, taken) := takeDigits next rest
      (significand, taken + 1)
    else (significand, 0)

def powerOfTen (n : Nat) : Float := Decimal.toDouble false 1 n

/-- Divides by a power of ten, in steps that stay within the range of doubles. Nothing is
left of any 64-bit significand after two full steps. -/
def divideByPower (x : Float) (n : Nat) : Float :=
  if n ≤ 308 then x / powerOfTen n
  else if n ≤ 616 then x / powerOfTen 308 / powerOfTen (n - 308)
  else 0.0

/-- A significand times a power of ten, unless that is infinite. -/
def scale? (significand : Nat) (power : Int) : Option Float :=
  let x := Binary64.ofCount significand
  if power < 0 then some (divideByPower x power.natAbs)
  else if 308 < power then (if significand = 0 then some x else none)
  else
    let y := x * powerOfTen power.toNat
    if y.isInf then none else some y

/-- The power of ten that the exponent gives, no larger than an exponent can matter. -/
def power (n : Numeral) : Int :=
  match n.exponent with
  | none => 0
  | some (negative, run) =>
    let value := min (Decimal.ofDigits run) (2 ^ 31)
    if negative then -(value : Int) else value

def double? (n : Numeral) : Option Float :=
  let (significand, taken) := takeDigits 0 n.whole
  let (significand, places) := takeDigits significand (n.fraction.getD [])
  scale? significand (n.power + (n.whole.length - taken : Nat) - places)

def value (n : Numeral) : Value :=
  let magnitude := Decimal.ofDigits n.whole
  let integral := n.fraction.isNone && n.exponent.isNone
  if integral && !n.negative && magnitude < 2 ^ 64 then .integer magnitude
  else if integral && n.negative && 0 < magnitude && magnitude ≤ 2 ^ 63 then
    .integer (-(magnitude : Int))
  else match n.double? with
    | some x => .double (if n.negative then -x else x)
    | none => .unreadable

end Numeral
end Recoding.Document.Json
