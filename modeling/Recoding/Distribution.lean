import Recoding.Naturals

/-!
# Distributions of sensitive values

How often each sensitive value occurs in a class. The values are kept in ascending
order and every listed frequency is positive, so equal distributions are equal lists.
-/

namespace Recoding

/-- Values with their frequencies, in ascending order of the values. -/
structure Distribution where
  entries : List (Nat × Nat)
deriving DecidableEq, Repr, Inhabited

namespace Distribution

def empty : Distribution := ⟨[]⟩

def insertEntry (value frequency : Nat) : List (Nat × Nat) → List (Nat × Nat)
  | [] => [(value, frequency)]
  | (v, n) :: rest =>
    if value < v then (value, frequency) :: (v, n) :: rest
    else if value = v then (v, n + frequency) :: rest
    else (v, n) :: insertEntry value frequency rest

def add (d : Distribution) (value frequency : Nat) : Distribution :=
  if frequency = 0 then d else ⟨insertEntry value frequency d.entries⟩

def merge (d other : Distribution) : Distribution :=
  other.entries.foldl (fun d (value, frequency) => d.add value frequency) d

def distinct (d : Distribution) : Nat := d.entries.length

def frequency (d : Distribution) (value : Nat) : Nat := (d.entries.lookup value).getD 0

/-- Values and frequencies in turn, as words of 32 bits: a frequency is stored modulo
`2 ^ 32`. -/
def encode (d : Distribution) : List Nat :=
  d.entries.flatMap fun (value, frequency) => [value, frequency % 2 ^ 32]

/-- Reads values and frequencies in turn; a value without a frequency is ignored. -/
def decodeOnto (d : Distribution) : List Nat → Distribution
  | value :: frequency :: rest => (d.add value frequency).decodeOnto rest
  | _ => d

def decode (words : List Nat) : Distribution := empty.decodeOnto words

/-- The joint distribution of two parts of a class; a part without one adds nothing. -/
def combine : Option Distribution → Option Distribution → Option Distribution
  | d, none => d
  | d, some other => some ((d.getD empty).merge other)

end Distribution
end Recoding
