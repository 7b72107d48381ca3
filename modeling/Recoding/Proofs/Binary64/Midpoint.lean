import Recoding.Proofs.Binary64.Neighbor

/-!
# Rounding switches at midpoints

A quotient is rounded to more than a magnitude exactly if it lies beyond the midpoint between that
magnitude and the next one, or on the midpoint if the next one is even. So no magnitude is closer to
a quotient than the one it is rounded to, and of two that are equally close the even one is taken.
-/

namespace Recoding.Binary64

section
variable {a b k n : Nat}

/-- A quotient is rounded to more than `n` from the middle between `n` and `n + 1` on. -/
theorem lt_roundHalfEven_iff (hb : 0 < b) : n < roundHalfEven a b ↔
    (2 * n + 1) * b < 2 * a ∨ (2 * n + 1) * b = 2 * a ∧ n % 2 = 1 := by
  have hdiv := Nat.div_add_mod' a b
  have hmod := Nat.mod_lt a hb
  have hodd : (2 * n + 1) * b = 2 * (n * b) + b := by ring
  unfold roundHalfEven
  dsimp only
  rw [hodd]
  generalize a / b = q at hdiv ⊢
  rcases lt_trichotomy n q with hlt | rfl | hgt
  · have hle : (n + 1) * b ≤ q * b := Nat.mul_le_mul_right b hlt
    rw [Nat.add_mul, Nat.one_mul] at hle
    split_ifs <;> omega
  · split_ifs <;> omega
  · have hle : (q + 1) * b ≤ n * b := Nat.mul_le_mul_right b hgt
    rw [Nat.add_mul, Nat.one_mul] at hle
    split_ifs <;> omega

/-- Twice the midpoint between a magnitude and the next one, counted in smallest doubles. -/
theorem units_midpoint (k : Nat) :
    units k + units (k + 1) = (2 * significand k + 1) * 2 ^ (k / 2 ^ 52 - 1) := by
  rw [units_succ, units]
  ring

theorem lt_nearestMagnitude_iff (hb : 0 < b) : k < nearestMagnitude a b ↔
    (units k + units (k + 1)) * b < 2 * (a * finest) ∨
      (units k + units (k + 1)) * b = 2 * (a * finest) ∧ k % 2 = 1 := by
  obtain ⟨j, hat, hnearest⟩ := exists_nearestMagnitude a hb
  have hk := binade_significand k
  have hlt := significand_lt k
  have hnormal := significand_normal k
  rw [hnearest, units_midpoint]
  generalize significand k = s at hk hlt hnormal ⊢
  generalize k / 2 ^ 52 - 1 = i at hk hnormal ⊢
  have hpos : 0 < b * 2 ^ j := Nat.mul_pos hb (Nat.two_pow_pos j)
  rcases lt_trichotomy i j with hij | rfl | hij
  · -- the magnitude is in a lower binade than the quotient
    have hle := hat.le.resolve_left (by omega)
    have hhigh : 2 ^ 52 ≤ roundHalfEven (a * finest) (b * 2 ^ j) := by
      apply le_roundHalfEven hpos
      calc 2 ^ 52 * (b * 2 ^ j) = b * 2 ^ (j + 52) := by ring
        _ ≤ a * finest := hle
    have hbelow : (2 * s + 1) * 2 ^ i * b < 2 * (a * finest) := by
      calc (2 * s + 1) * 2 ^ i * b < 2 ^ 54 * 2 ^ i * b := by
            apply Nat.mul_lt_mul_of_pos_right _ hb
            apply Nat.mul_lt_mul_of_pos_right _ (Nat.two_pow_pos i)
            omega
        _ = 2 * (b * 2 ^ (i + 1 + 52)) := by ring
        _ ≤ 2 * (b * 2 ^ (j + 52)) := by
            apply Nat.mul_le_mul_left
            apply Nat.mul_le_mul_left
            exact Nat.pow_le_pow_right (by decide) (by omega)
        _ ≤ 2 * (a * finest) := Nat.mul_le_mul_left 2 hle
    exact ⟨fun _ => Or.inl hbelow, fun _ => by omega⟩
  · -- in the binade of the quotient the significands are compared
    have hmiddle : (2 * s + 1) * 2 ^ i * b = (2 * s + 1) * (b * 2 ^ i) := by ring
    have hcut := lt_roundHalfEven_iff (a := a * finest) (n := s) hpos
    rw [hmiddle, show k % 2 = s % 2 by omega, ← hcut]
    omega
  · -- the magnitude is in a higher binade than the quotient
    have hhigh : roundHalfEven (a * finest) (b * 2 ^ j) ≤ 2 ^ 53 := by
      apply roundHalfEven_le_of_le hpos
      calc a * finest ≤ b * 2 ^ (j + 53) := hat.lt.le
        _ = 2 ^ 53 * (b * 2 ^ j) := by ring
    have hs := hnormal.resolve_left (by omega)
    have habove : 2 * (a * finest) < (2 * s + 1) * 2 ^ i * b := by
      calc 2 * (a * finest) < 2 * (b * 2 ^ (j + 53)) :=
            Nat.mul_lt_mul_of_pos_left hat.lt (by decide)
        _ ≤ 2 * (b * 2 ^ (i + 52)) := by
            apply Nat.mul_le_mul_left
            apply Nat.mul_le_mul_left
            exact Nat.pow_le_pow_right (by decide) (by omega)
        _ = 2 * 2 ^ 52 * 2 ^ i * b := by ring
        _ ≤ (2 * s + 1) * 2 ^ i * b := by
            apply Nat.mul_le_mul_right
            apply Nat.mul_le_mul_right
            omega
    exact ⟨fun _ => by omega, fun _ => by omega⟩

end

/-! ## Distances -/

section
variable {a b k : Nat}

/-- The rational in the middle between a magnitude and the next one. -/
def midpoint (k : Nat) : ℚ := (units k + units (k + 1)) / (2 * finest)

theorem lt_nearestMagnitude_iff_midpoint (hb : 0 < b) : k < nearestMagnitude a b ↔
    midpoint k < a / b ∨ midpoint k = a / b ∧ k % 2 = 1 := by
  have hcast : (0 : ℚ) < b := by exact_mod_cast hb
  have hfinest : (0 : ℚ) < 2 * finest := mul_pos two_pos finest_cast_pos
  have hdouble : (a : ℚ) * (2 * finest) = 2 * (a * finest) := by ring
  rw [lt_nearestMagnitude_iff hb, midpoint, div_lt_div_iff₀ hfinest hcast,
    div_eq_div_iff hfinest.ne' hcast.ne', hdouble]
  norm_cast

/-- What lies beyond the middle of two numbers is closer to the second one than to whatever is at
most the first one. -/
theorem closer_of_middle {q u v w : ℚ} (huv : u ≤ v) (hvw : v < w) (h : (v + w) / 2 ≤ q) :
    |q - w| ≤ |q - u| ∧ (|q - w| = |q - u| → (v + w) / 2 = q) := by
  have hu : |q - u| = q - u := abs_of_nonneg (by linarith)
  rw [hu]
  constructor
  · apply abs_le.mpr
    constructor <;> linarith
  · intro heq
    rcases le_total w q with hle | hle
    · rw [abs_of_nonneg (by linarith)] at heq
      linarith
    · rw [abs_of_nonpos (by linarith)] at heq
      linarith

/-- No magnitude is closer to a quotient than the one that it is rounded to, which is even if
another one is as close. -/
theorem nearestMagnitude_closest (hb : 0 < b) (hk : k ≠ nearestMagnitude a b) :
    |(a / b : ℚ) - units (nearestMagnitude a b) / finest| ≤ |(a / b : ℚ) - units k / finest| ∧
      (|(a / b : ℚ) - units (nearestMagnitude a b) / finest| = |(a / b : ℚ) - units k / finest| →
        nearestMagnitude a b % 2 = 0) := by
  have hmono : ∀ {m n : Nat}, m ≤ n → (units m : ℚ) / finest ≤ units n / finest := by
    intro m n hmn
    apply div_le_div_of_nonneg_right _ finest_cast_pos.le
    exact_mod_cast units_mono hmn
  have hstep : ∀ m : Nat, (units m : ℚ) / finest < units (m + 1) / finest := by
    intro m
    apply div_lt_div_of_pos_right _ finest_cast_pos
    exact_mod_cast units_strictMono m.lt_succ_self
  have hmiddle : ∀ m : Nat, midpoint m = (units m / finest + units (m + 1) / finest) / 2 := by
    intro m
    rw [midpoint, ← add_div, div_div, mul_comm]
  have hcut : ∀ m, m < nearestMagnitude a b ↔ _ := fun m => lt_nearestMagnitude_iff_midpoint hb
  generalize hm : nearestMagnitude a b = m at hk hcut ⊢
  rcases hk.lt_or_gt with hlt | hgt
  · obtain ⟨p, rfl⟩ : ∃ p, m = p + 1 := ⟨m - 1, by omega⟩
    have hbelow := (hcut p).mp p.lt_succ_self
    have hle : midpoint p ≤ a / b := hbelow.elim le_of_lt fun h => h.1.le
    rw [hmiddle] at hle
    obtain ⟨hcloser, heq⟩ := closer_of_middle (hmono (by omega : k ≤ p)) (hstep p) hle
    refine ⟨hcloser, fun h => ?_⟩
    rw [hmiddle, heq h] at hbelow
    have hodd := hbelow.resolve_left (lt_irrefl _)
    omega
  · obtain ⟨hle, htie⟩ := not_or.mp (mt (hcut m).mpr (lt_irrefl m))
    rw [not_lt, hmiddle] at hle
    rw [hmiddle] at htie
    -- the mirror image at zero has the quotient beyond the middle
    have hneg : ∀ p : Nat, |(a / b : ℚ) - units p / finest| =
        |-(a / b : ℚ) - -(units p / finest)| := by
      intro p
      rw [neg_sub_neg, abs_sub_comm]
    rw [hneg m, hneg k]
    obtain ⟨hcloser, heq⟩ := closer_of_middle (neg_le_neg (hmono (by omega : m + 1 ≤ k)))
      (neg_lt_neg (hstep m)) (by linarith : _ ≤ -(a / b : ℚ))
    refine ⟨hcloser, fun h => ?_⟩
    have hmirror := heq h
    by_contra hodd
    exact htie ⟨by linarith, by omega⟩

end

end Recoding.Binary64
