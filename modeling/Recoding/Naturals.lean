/-!
# The arithmetic of the naturals

A power is the core one and the zero of a sum is the literal, so a definition reads the same
whether or not an algebraic hierarchy is in scope. Numbers of machine words are naturals too, and
those that outgrow their word are none.
-/

namespace Recoding

attribute [default_instance 10100] instPowNat

attribute [scoped instance (1100)] instPowNat

scoped instance zeroOfNat : Zero Nat := ⟨0⟩

/-- A number that fits into 64 bits. -/
def word? (n : Nat) : Option Nat := if n < 2 ^ 64 then some n else none

theorem word?_eq {n : Nat} (h : n < 2 ^ 64) : word? n = some n := if_pos h

theorem word?_eq_some {n m : Nat} : word? n = some m ↔ m = n ∧ n < 2 ^ 64 := by
  by_cases h : n < 2 ^ 64
  · rw [word?_eq h, Option.some.injEq, eq_comm]
    exact (and_iff_left h).symm
  · rw [word?, if_neg h]
    exact ⟨nofun, fun hand => absurd hand.2 h⟩

def sum? (ns : List Nat) : Option Nat := ns.foldlM (fun sum n => word? (sum + n)) 0

/-- The least power of two that is not below a number. -/
def nextPower (n : Nat) : Nat := if n ≤ 1 then 1 else 2 ^ ((n - 1).log2 + 1)

theorem nextPower_pos (n : Nat) : 0 < nextPower n := by
  unfold nextPower
  split
  · exact Nat.one_pos
  · exact Nat.two_pow_pos _

theorem nextPower_lt {n k : Nat} : nextPower n < 2 ^ (k + 1) ↔ n ≤ 2 ^ k := by
  unfold nextPower
  split
  case isTrue h =>
    have hpow := Nat.one_lt_two_pow (Nat.succ_ne_zero k)
    exact ⟨fun _ => Nat.le_trans h (Nat.two_pow_pos k), fun _ => hpow⟩
  case isFalse h =>
    rw [Nat.pow_lt_pow_iff_right Nat.one_lt_two, Nat.add_lt_add_iff_right,
      Nat.log2_lt (by omega)]
    omega

end Recoding
