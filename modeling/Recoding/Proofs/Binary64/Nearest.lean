import Recoding.Binary64.Exact
import Recoding.Binary64.Nearest
import Mathlib.Tactic

/-!
# Rounding

The magnitude nearest to a quotient depends on its value alone and grows with it, and every
magnitude is the one nearest to what it stands for.
-/

namespace Recoding.Binary64

section
variable {a b c : Nat}

theorem div_le_roundHalfEven (a b : Nat) : a / b ≤ roundHalfEven a b := by
  unfold roundHalfEven
  dsimp only
  split_ifs <;> omega

theorem roundHalfEven_le (a b : Nat) : roundHalfEven a b ≤ a / b + 1 := by
  unfold roundHalfEven
  dsimp only
  split_ifs <;> omega

theorem roundHalfEven_mul (n : Nat) (hb : 0 < b) : roundHalfEven (n * b) b = n := by
  unfold roundHalfEven
  simp [Nat.mul_div_cancel n hb, hb]

theorem roundHalfEven_scale (a b : Nat) (hc : 0 < c) :
    roundHalfEven (a * c) (b * c) = roundHalfEven a b := by
  have hmod : a * c % (b * c) = a % b * c := Nat.mul_mod_mul_right c a b
  have htwice : 2 * (a % b * c) = 2 * (a % b) * c := by ring
  unfold roundHalfEven
  dsimp only
  rw [Nat.mul_div_mul_right a b hc, hmod, htwice]
  simp only [Nat.mul_lt_mul_right hc, Nat.mul_left_inj hc.ne']

theorem roundHalfEven_mono (b : Nat) (h : a ≤ c) : roundHalfEven a b ≤ roundHalfEven c b := by
  have hdiv : a / b ≤ c / b := Nat.div_le_div_right h
  rcases hdiv.lt_or_eq with hlt | heq
  · exact (roundHalfEven_le a b).trans (hlt.trans_le (div_le_roundHalfEven c b))
  · have ha := Nat.div_add_mod a b
    have hc := Nat.div_add_mod c b
    unfold roundHalfEven
    dsimp only
    rw [heq] at ha ⊢
    split_ifs <;> omega

theorem le_roundHalfEven {n : Nat} (hb : 0 < b) (h : n * b ≤ a) : n ≤ roundHalfEven a b := by
  rw [← roundHalfEven_mul n hb]
  exact roundHalfEven_mono b h

theorem roundHalfEven_le_of_le {n : Nat} (hb : 0 < b) (h : a ≤ n * b) :
    roundHalfEven a b ≤ n := by
  rw [← roundHalfEven_mul n hb]
  exact roundHalfEven_mono b h

end

/-! ## The order of a quotient -/

theorem scaled_le_iff {num den p q r s : Nat} (h : p + s = r + q) :
    den * 2 ^ p ≤ num * 2 ^ q ↔ den * 2 ^ r ≤ num * 2 ^ s := by
  have hden : den * 2 ^ p * 2 ^ s = den * 2 ^ r * 2 ^ q := by
    rw [mul_assoc, mul_assoc, ← pow_add, ← pow_add, h]
  have hnum : num * 2 ^ q * 2 ^ s = num * 2 ^ s * 2 ^ q := by ring
  rw [← Nat.mul_le_mul_right_iff (Nat.two_pow_pos s), hden, hnum,
    Nat.mul_le_mul_right_iff (Nat.two_pow_pos q)]

theorem reaches_iff {num den r s : Nat} {k : Int} (h : k = (r : Int) - s) :
    reaches num den k = true ↔ den * 2 ^ r ≤ num * 2 ^ s := by
  cases k with
  | ofNat k =>
    have hshift : k + s = r + 0 := by
      rw [Int.ofNat_eq_natCast] at h
      omega
    simpa [reaches] using scaled_le_iff hshift
  | negSucc k =>
    have hshift : 0 + s = r + (k + 1) := by
      rw [Int.negSucc_eq] at h
      omega
    simpa [reaches] using scaled_le_iff hshift

/-- The order of a quotient is the exponent of the greatest power of two below it. -/
theorem binaryOrder_spec {num den : Nat} (hn : 0 < num) (hd : 0 < den) {p q : Nat}
    (h : binaryOrder num den = (p : Int) - q) :
    den * 2 ^ p ≤ num * 2 ^ q ∧ num * 2 ^ q < den * 2 ^ (p + 1) := by
  -- the guess is at most one too high
  have hhigh : ∀ {r s : Nat}, (num.log2 : Int) - den.log2 = (r : Int) - s →
      num * 2 ^ s < den * 2 ^ (r + 1) := by
    intro r s hguess
    have hlog : num.log2 + 1 + s = den.log2 + (r + 1) := by omega
    calc num * 2 ^ s < 2 ^ (num.log2 + 1) * 2 ^ s :=
          Nat.mul_lt_mul_of_pos_right Nat.lt_log2_self (Nat.two_pow_pos s)
      _ = 2 ^ den.log2 * 2 ^ (r + 1) := by rw [← pow_add, ← pow_add, hlog]
      _ ≤ den * 2 ^ (r + 1) := Nat.mul_le_mul_right _ (Nat.log2_self_le hd.ne')
  have hlow : ∀ {r s : Nat}, (num.log2 : Int) - den.log2 = (r : Int) - s →
      den * 2 ^ r < num * 2 ^ (s + 1) := by
    intro r s hguess
    have hlog : den.log2 + 1 + r = num.log2 + (s + 1) := by omega
    calc den * 2 ^ r < 2 ^ (den.log2 + 1) * 2 ^ r :=
          Nat.mul_lt_mul_of_pos_right Nat.lt_log2_self (Nat.two_pow_pos r)
      _ = 2 ^ num.log2 * 2 ^ (s + 1) := by rw [← pow_add, ← pow_add, hlog]
      _ ≤ num * 2 ^ (s + 1) := Nat.mul_le_mul_right _ (Nat.log2_self_le hn.ne')
  unfold binaryOrder at h
  dsimp only at h
  split_ifs at h with hr
  · exact ⟨(reaches_iff h).mp hr, hhigh h⟩
  · have hguess : (num.log2 : Int) - den.log2 = ((p + 1 : Nat) : Int) - q := by omega
    refine ⟨?_, not_le.mp fun hle => hr ((reaches_iff hguess).mpr hle)⟩
    have hlt := hlow hguess
    rw [pow_succ, pow_succ, ← mul_assoc, ← mul_assoc] at hlt
    exact (Nat.lt_of_mul_lt_mul_right hlt).le

/-! ## The nearest magnitude -/

/-- The smallest positive double is two to the power of minus this number. -/
@[irreducible]
def depth : Nat := 1074

theorem depth_eq : depth = 1074 := by rw [depth]

/-- How often the smallest positive double goes into one. -/
def finest : Nat := 2 ^ depth

theorem finest_pos : 0 < finest := Nat.two_pow_pos depth

theorem finest_cast_pos : (0 : ℚ) < finest := by exact_mod_cast finest_pos

/-- How many binades above the smallest ones a quotient is rounded. -/
structure RoundedAt (num den k : Nat) : Prop where
  lt : num * finest < den * 2 ^ (k + 53)
  le : k = 0 ∨ den * 2 ^ (k + 52) ≤ num * finest

section
variable {a b c d k : Nat}

theorem RoundedAt.le_of_le {j : Nat} (hk : RoundedAt a b k) (hj : RoundedAt c d j) (hb : 0 < b)
    (h : a * d ≤ c * b) : k ≤ j := by
  by_contra hlt
  have hle := hk.le.resolve_left (by omega)
  have hpow : 2 ^ (j + 53) ≤ 2 ^ (k + 52) := Nat.pow_le_pow_right (by decide) (by omega)
  have hchain : b * d * 2 ^ (k + 52) < b * d * 2 ^ (j + 53) :=
    calc b * d * 2 ^ (k + 52) = b * 2 ^ (k + 52) * d := by ring
      _ ≤ a * finest * d := Nat.mul_le_mul_right d hle
      _ = a * d * finest := by ring
      _ ≤ c * b * finest := Nat.mul_le_mul_right finest h
      _ = c * finest * b := by ring
      _ < d * 2 ^ (j + 53) * b := Nat.mul_lt_mul_of_pos_right hj.lt hb
      _ = b * d * 2 ^ (j + 53) := by ring
  have := Nat.lt_of_mul_lt_mul_left hchain
  omega

theorem roundHalfEven_unit (a b : Nat) {unit : Int} {p q : Nat} : unit = (p : Int) - q →
    (match unit with
      | .ofNat k => roundHalfEven a (b * 2 ^ k)
      | .negSucc k => roundHalfEven (a * 2 ^ (k + 1)) b) =
        roundHalfEven (a * 2 ^ q) (b * 2 ^ p) := by
  intro h
  cases unit with
  | ofNat k =>
    obtain rfl : p = k + q := by
      rw [Int.ofNat_eq_natCast] at h
      omega
    dsimp only
    rw [pow_add, ← mul_assoc, roundHalfEven_scale _ _ (Nat.two_pow_pos q)]
  | negSucc k =>
    obtain rfl : q = k + 1 + p := by
      rw [Int.negSucc_eq] at h
      omega
    dsimp only
    rw [pow_add _ (k + 1) p, ← mul_assoc, roundHalfEven_scale _ _ (Nat.two_pow_pos p)]

theorem exists_nearestMagnitude (a : Nat) (hb : 0 < b) : ∃ k, RoundedAt a b k ∧
    nearestMagnitude a b = k * 2 ^ 52 + roundHalfEven (a * finest) (b * 2 ^ k) := by
  rcases Nat.eq_zero_or_pos a with rfl | ha
  · refine ⟨0, ⟨by rw [Nat.zero_mul]; positivity, Or.inl rfl⟩, ?_⟩
    have hzero := roundHalfEven_mul 0 hb
    rw [Nat.zero_mul] at hzero
    simp [nearestMagnitude, hzero]
  have hdepth := depth_eq
  have hmagnitude : ∀ k : Nat, max (binaryOrder a b - 52) (-1074) = (k : Int) - depth →
      nearestMagnitude a b = k * 2 ^ 52 + roundHalfEven (a * finest) (b * 2 ^ k) := by
    intro k hunit
    have hk : ((k : Int) - depth + 1074).toNat = k := by omega
    unfold nearestMagnitude
    rw [if_neg ha.ne', hunit]
    dsimp only
    rw [hk]
    exact congrArg (k * 2 ^ 52 + ·) (roundHalfEven_unit a b rfl)
  rcases le_or_gt (-1074) (binaryOrder a b - 52) with hnormal | hsmall
  · obtain ⟨k, hk⟩ := Int.eq_ofNat_of_zero_le (show 0 ≤ binaryOrder a b - 52 + 1074 by omega)
    have horder : binaryOrder a b = ((k + 52 : Nat) : Int) - depth := by omega
    obtain ⟨hle, hlt⟩ := binaryOrder_spec ha hb horder
    exact ⟨k, ⟨hlt, Or.inr hle⟩, hmagnitude k (by omega)⟩
  · obtain ⟨t, ht⟩ := Int.eq_ofNat_of_zero_le (show 0 ≤ 52 - 1074 - binaryOrder a b by omega)
    have horder : binaryOrder a b = ((52 : Nat) : Int) - (depth + t : Nat) := by omega
    obtain ⟨-, hlt⟩ := binaryOrder_spec ha hb horder
    rw [pow_add, ← mul_assoc] at hlt
    exact ⟨0, ⟨(Nat.le_mul_of_pos_right _ (Nat.two_pow_pos t)).trans_lt hlt, Or.inl rfl⟩,
      hmagnitude 0 (by omega)⟩

theorem nearestMagnitude_eq (hb : 0 < b) (hk : RoundedAt a b k) :
    nearestMagnitude a b = k * 2 ^ 52 + roundHalfEven (a * finest) (b * 2 ^ k) := by
  obtain ⟨j, hj, heq⟩ := exists_nearestMagnitude a hb
  obtain rfl : k = j := le_antisymm (hk.le_of_le hj hb le_rfl) (hj.le_of_le hk hb le_rfl)
  exact heq

/-- The nearest magnitude in terms of a quotient from which a power of two is split off. -/
theorem nearestMagnitude_scaled {i j n : Nat} (hb : 0 < b) (h : j + k = n + (i + depth))
    (hlt : a < 2 ^ 53 * (b * 2 ^ n)) (hle : k = 0 ∨ 2 ^ 52 * (b * 2 ^ n) ≤ a) :
    nearestMagnitude (a * 2 ^ i) (b * 2 ^ j) = k * 2 ^ 52 + roundHalfEven a (b * 2 ^ n) := by
  have hpos : 0 < 2 ^ i * 2 ^ depth := by positivity
  have hnum : a * 2 ^ i * finest = a * (2 ^ i * 2 ^ depth) := by rw [mul_assoc, finest]
  have hden : b * 2 ^ j * 2 ^ k = b * 2 ^ n * (2 ^ i * 2 ^ depth) := by
    rw [mul_assoc, mul_assoc, ← pow_add, ← pow_add, ← pow_add, h]
  have hat : RoundedAt (a * 2 ^ i) (b * 2 ^ j) k := by
    refine ⟨?_, hle.imp_right fun hle => ?_⟩
    · calc a * 2 ^ i * finest < 2 ^ 53 * (b * 2 ^ n) * (2 ^ i * 2 ^ depth) :=
            hnum.trans_lt (Nat.mul_lt_mul_of_pos_right hlt hpos)
        _ = b * 2 ^ j * 2 ^ (k + 53) := by
            rw [pow_add _ k, ← mul_assoc (b * 2 ^ j), hden]
            ring
    · calc b * 2 ^ j * 2 ^ (k + 52) = 2 ^ 52 * (b * 2 ^ n) * (2 ^ i * 2 ^ depth) := by
            rw [pow_add _ k, ← mul_assoc (b * 2 ^ j), hden]
            ring
        _ ≤ a * 2 ^ i * finest := (Nat.mul_le_mul_right _ hle).trans_eq hnum.symm
  rw [nearestMagnitude_eq (Nat.mul_pos hb (Nat.two_pow_pos j)) hat, hnum, hden,
    roundHalfEven_scale _ _ hpos]

theorem nearestMagnitude_mono (hb : 0 < b) (hd : 0 < d) (h : a * d ≤ c * b) :
    nearestMagnitude a b ≤ nearestMagnitude c d := by
  obtain ⟨k, hk, hleft⟩ := exists_nearestMagnitude a hb
  obtain ⟨j, hj, hright⟩ := exists_nearestMagnitude c hd
  rw [hleft, hright]
  rcases (hk.le_of_le hj hb h).lt_or_eq with hlt | rfl
  · have hhigh : roundHalfEven (a * finest) (b * 2 ^ k) ≤ 2 ^ 53 := by
      refine roundHalfEven_le_of_le (Nat.mul_pos hb (Nat.two_pow_pos k)) (hk.lt.le.trans_eq ?_)
      ring
    have hlow : 2 ^ 52 ≤ roundHalfEven (c * finest) (d * 2 ^ j) := by
      refine le_roundHalfEven (Nat.mul_pos hd (Nat.two_pow_pos j))
        (Eq.trans_le ?_ (hj.le.resolve_left (by omega)))
      ring
    omega
  · have hleft : roundHalfEven (a * finest) (b * 2 ^ k) =
        roundHalfEven (a * d * finest) (b * d * 2 ^ k) := by
      rw [← roundHalfEven_scale _ _ hd, mul_right_comm a, mul_right_comm b]
    have hright : roundHalfEven (c * finest) (d * 2 ^ k) =
        roundHalfEven (c * b * finest) (b * d * 2 ^ k) := by
      rw [← roundHalfEven_scale _ _ hb, mul_right_comm c, mul_right_comm d, mul_comm d]
    rw [hleft, hright]
    exact Nat.add_le_add_left (roundHalfEven_mono _ (Nat.mul_le_mul_right finest h)) _

theorem nearestMagnitude_congr (hb : 0 < b) (hd : 0 < d) (h : a * d = c * b) :
    nearestMagnitude a b = nearestMagnitude c d :=
  le_antisymm (nearestMagnitude_mono hb hd h.le) (nearestMagnitude_mono hd hb h.ge)

theorem nearestMagnitude_exact {r : Nat} (hb : 0 < b) (hr : r < 2 ^ 53) (hk : k = 0 ∨ 2 ^ 52 ≤ r)
    (h : a * finest = r * (b * 2 ^ k)) : nearestMagnitude a b = k * 2 ^ 52 + r := by
  have hpos : 0 < b * 2 ^ k := Nat.mul_pos hb (Nat.two_pow_pos k)
  have hat : RoundedAt a b k := by
    refine ⟨?_, hk.imp_right fun hk => ?_⟩
    · calc a * finest = b * 2 ^ k * r := by rw [h, mul_comm]
        _ < b * 2 ^ k * 2 ^ 53 := Nat.mul_lt_mul_of_pos_left hr hpos
        _ = b * 2 ^ (k + 53) := by rw [pow_add, mul_assoc]
    · calc b * 2 ^ (k + 52) = b * 2 ^ k * 2 ^ 52 := by rw [pow_add, mul_assoc]
        _ ≤ b * 2 ^ k * r := Nat.mul_le_mul_left _ hk
        _ = a * finest := by rw [h, mul_comm]
  rw [nearestMagnitude_eq hb hat, h, roundHalfEven_mul r hpos]

end

/-! ## Exact values -/

/-- The value of a magnitude, counted in smallest positive doubles. -/
def units (m : Nat) : Nat := significand m * 2 ^ (m / 2 ^ 52 - 1)

theorem significand_lt (m : Nat) : significand m < 2 ^ 53 := by
  unfold significand
  split_ifs <;> omega

theorem units_add {k r : Nat} (hr : r < 2 ^ 53) (hk : k = 0 ∨ 2 ^ 52 ≤ r) :
    units (k * 2 ^ 52 + r) = r * 2 ^ k := by
  unfold units significand
  rcases lt_or_ge r (2 ^ 52) with hlow | hhigh
  · have hdiv : (k * 2 ^ 52 + r) / 2 ^ 52 = 0 := by omega
    have hmod : (k * 2 ^ 52 + r) % 2 ^ 52 = r := by omega
    obtain rfl : k = 0 := by omega
    rw [if_pos hdiv, hdiv, hmod]
  · have hdiv : (k * 2 ^ 52 + r) / 2 ^ 52 = k + 1 := by omega
    have hmod : 2 ^ 52 + (k * 2 ^ 52 + r) % 2 ^ 52 = r := by omega
    rw [if_neg (by omega), hdiv, hmod, Nat.add_sub_cancel]

theorem binade_significand (m : Nat) : (m / 2 ^ 52 - 1) * 2 ^ 52 + significand m = m := by
  unfold significand
  split_ifs <;> omega

theorem significand_normal (m : Nat) : m / 2 ^ 52 - 1 = 0 ∨ 2 ^ 52 ≤ significand m := by
  unfold significand
  split_ifs <;> omega

theorem nearestMagnitude_units (m : Nat) : nearestMagnitude (units m) finest = m := by
  have hexact : units m * finest = significand m * (finest * 2 ^ (m / 2 ^ 52 - 1)) := by
    unfold units
    ring
  rw [nearestMagnitude_exact finest_pos (significand_lt m) (significand_normal m) hexact,
    binade_significand]

theorem units_mono {m n : Nat} (h : m ≤ n) : units m ≤ units n := by
  by_contra hlt
  have hle := nearestMagnitude_mono finest_pos finest_pos
    (Nat.mul_le_mul_right finest (not_le.mp hlt).le)
  rw [nearestMagnitude_units, nearestMagnitude_units] at hle
  exact hlt (le_antisymm h hle ▸ le_rfl)

theorem units_zero : units 0 = 0 := by
  simp [units, significand]

theorem units_nearestMagnitude {n : Nat} (h : n < 2 ^ 53) :
    units (nearestMagnitude n 1) = n * finest := by
  rcases Nat.eq_zero_or_pos n with rfl | hn
  · simp [nearestMagnitude, units_zero]
  · have hlow := Nat.log2_self_le hn.ne'
    have hhigh : n < 2 ^ (n.log2 + 1) := Nat.lt_log2_self
    have hlog : n.log2 < 53 := (Nat.log2_lt hn.ne').mpr h
    have hdepth := depth_eq
    have hr : n * 2 ^ (52 - n.log2) < 2 ^ 53 := by
      calc n * 2 ^ (52 - n.log2) < 2 ^ (n.log2 + 1) * 2 ^ (52 - n.log2) :=
            Nat.mul_lt_mul_of_pos_right hhigh (Nat.two_pow_pos _)
        _ = 2 ^ 53 := by rw [← pow_add]; congr 1; omega
    have hnormal : 2 ^ 52 ≤ n * 2 ^ (52 - n.log2) := by
      calc 2 ^ 52 = 2 ^ n.log2 * 2 ^ (52 - n.log2) := by rw [← pow_add]; congr 1; omega
        _ ≤ n * 2 ^ (52 - n.log2) := Nat.mul_le_mul_right _ hlow
    have hvalue : n * finest = n * 2 ^ (52 - n.log2) * 2 ^ (depth + n.log2 - 52) := by
      rw [mul_assoc, ← pow_add, finest]
      congr 2
      omega
    rw [nearestMagnitude_exact one_pos hr (Or.inr hnormal) (by rw [hvalue, one_mul]),
      units_add hr (Or.inr hnormal), hvalue]

end Recoding.Binary64
