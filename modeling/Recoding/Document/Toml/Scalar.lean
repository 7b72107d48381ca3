import Recoding.Decimal.Reading
import Recoding.Document.Value

/-!
# TOML scalars without quotes

Booleans, integers of 64 bits, doubles, and dates and times. Underscores may stand
between two digits of a number.
-/

namespace Recoding.Document.Toml

/-! ## Digits -/

/-- Removes the underscores of a run of digits, each of which stands between two digits. -/
def digits? (isDigit : Char → Bool) : List Char → Option (List Char)
  | [] => none
  | [c] => if isDigit c then some [c] else none
  | c :: '_' :: rest => if isDigit c then (digits? isDigit rest).map (c :: ·) else none
  | c :: d :: rest => if isDigit c then (digits? isDigit (d :: rest)).map (c :: ·) else none

def digitValue (c : Char) : Nat :=
  if c.isDigit then c.toNat - '0'.toNat
  else if c.isUpper then c.toNat - 'A'.toNat + 10
  else c.toNat - 'a'.toNat + 10

def isDigitOf (base : Nat) (c : Char) : Bool :=
  (c.isDigit || ('a' ≤ c && c ≤ 'f') || ('A' ≤ c && c ≤ 'F')) && digitValue c < base

def sign : List Char → Bool × List Char
  | '+' :: rest => (false, rest)
  | '-' :: rest => (true, rest)
  | rest => (false, rest)

/-- The digits of a decimal whole number, which has no leading zeros. -/
def wholeDigits? (word : List Char) : Option (List Char) := do
  let run ← digits? Char.isDigit word
  if run.length > 1 && run.head? == some '0' then none else some run

/-! ## Numbers -/

def fits (n : Int) : Option Value :=
  if -(2 ^ 63) ≤ n ∧ n < 2 ^ 63 then some (.integer n) else none

/-- A whole number in a base, without a sign. -/
def radix? (base : Nat) (word : List Char) : Option Value := do
  let run ← digits? (isDigitOf base) word
  fits (run.foldl (fun n c => base * n + digitValue c) 0 : Nat)

def integer? : List Char → Option Value
  | '0' :: 'x' :: rest => radix? 16 rest
  | '0' :: 'o' :: rest => radix? 8 rest
  | '0' :: 'b' :: rest => radix? 2 rest
  | word => do
    let (negative, rest) := sign word
    let n : Nat := Decimal.ofDigits (← wholeDigits? rest)
    fits (if negative then -(n : Int) else n)

/-- Splits a word at the first character of a kind, which is left out. -/
def splitAt? (p : Char → Bool) (word : List Char) : Option (List Char × List Char) :=
  match word.dropWhile fun c => !p c with
  | [] => none
  | _ :: rest => some (word.takeWhile fun c => !p c, rest)

def exponent? (word : List Char) : Option Int := do
  let (negative, rest) := sign word
  let n : Nat := Decimal.ofDigits (← digits? Char.isDigit rest)
  return if negative then -(n : Int) else n

/-- A number with a fraction or an exponent. Positive infinity has to be written as such. -/
def double? (word : List Char) : Option Value := do
  let (negative, rest) := sign word
  if rest = ['i', 'n', 'f'] then return .double (Binary64.infinity negative)
  if rest = ['n', 'a', 'n'] then return .double (0.0 / 0.0)
  let (mantissa, exponent) ← match splitAt? (fun c => c == 'e' || c == 'E') rest with
    | some (mantissa, exponent) => (exponent? exponent).map (mantissa, ·)
    | none => if rest.contains '.' then some (rest, 0) else none
  let (whole, fraction) ← match splitAt? (· == '.') mantissa with
    | some (whole, fraction) => (digits? Char.isDigit fraction).map (whole, ·)
    | none => some (mantissa, [])
  let whole ← wholeDigits? whole
  let x := Decimal.toDouble negative (Decimal.ofDigits (whole ++ fraction))
    (exponent - fraction.length)
  if x.isInf && !negative then none else return .double x

/-! ## Dates and times -/

/-- A number of exactly so many digits. -/
def fixed? (n : Nat) (word : List Char) : Option Nat :=
  if word.length = n ∧ word.all Char.isDigit then some (Decimal.ofDigits word) else none

def isLeapYear (year : Nat) : Bool := year % 4 == 0 && (year % 100 != 0 || year % 400 == 0)

def daysOfMonth (year month : Nat) : Nat :=
  if month = 2 then (if isLeapYear year then 29 else 28)
  else if [4, 6, 9, 11].contains month then 30 else 31

def isDate : List Char → Bool
  | [y1, y2, y3, y4, '-', m1, m2, '-', d1, d2] =>
    match fixed? 4 [y1, y2, y3, y4], fixed? 2 [m1, m2], fixed? 2 [d1, d2] with
    | some year, some month, some day =>
      1 ≤ month && month ≤ 12 && 1 ≤ day && day ≤ daysOfMonth year month
    | _, _, _ => false
  | _ => false

/-- Whether two digits are a number up to a maximum. -/
def isUpTo (maximum : Nat) (a b : Char) : Bool := (fixed? 2 [a, b]).any (· ≤ maximum)

def isSecondFraction : List Char → Bool
  | [] => true
  | '.' :: rest => !rest.isEmpty && rest.all Char.isDigit
  | _ => false

def isTime : List Char → Bool
  | h1 :: h2 :: ':' :: m1 :: m2 :: ':' :: s1 :: s2 :: rest =>
    isUpTo 23 h1 h2 && isUpTo 59 m1 m2 && isUpTo 60 s1 s2 && isSecondFraction rest
  | _ => false

/-- Whether a word is a difference from universal time: a sign, hours and minutes. -/
def isOffset : List Char → Bool
  | [s, h1, h2, ':', m1, m2] => (s == '+' || s == '-') && isUpTo 23 h1 h2 && isUpTo 59 m1 m2
  | _ => false

/-- Whether a word is a time of day, perhaps with a difference from universal time. -/
def isZonedTime (word : List Char) : Bool :=
  let zone := word.dropWhile fun c => !(c == 'Z' || c == 'z' || c == '+' || c == '-')
  let time := word.take (word.length - zone.length)
  isTime time && (zone.isEmpty || zone == ['Z'] || zone == ['z'] || isOffset zone)

/-- Whether a word is a date, a time, or both with a letter between them. -/
def isTimestamp (word : List Char) : Bool :=
  isDate word || isTime word ||
    (isDate (word.take 10) &&
      match word.drop 10 with
      | c :: rest => (c == 'T' || c == 't') && isZonedTime rest
      | [] => false)

def scalar? (word : List Char) : Option Value :=
  if word = ['t', 'r', 'u', 'e'] then some (.bool true)
  else if word = ['f', 'a', 'l', 's', 'e'] then some (.bool false)
  else if isTimestamp word then some (.timestamp (String.ofList word))
  else (double? word).or (integer? word)

end Recoding.Document.Toml
