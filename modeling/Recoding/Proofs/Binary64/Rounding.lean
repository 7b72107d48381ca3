import Recoding.Proofs.Binary64.Midpoint
import Recoding.Proofs.Binary64.Signed

/-!
# Rounded results

Every rational is rounded to a weight, that of an infinity at most, and rounding keeps the order.
Sums, differences, products and quotients of finite doubles of any sign have the weight to which the
exact result is rounded, so one step of the weight on each side encloses the exact result.
-/

namespace Recoding.Binary64

open Float.Model Float.Model.UnpackedFloat

/-! ## Rounding -/

def roundedMagnitude (q : ℚ) : Nat := min (nearestMagnitude q.num.natAbs q.den) infiniteMagnitude

/-- The weight to which a rational is rounded. -/
def rounded (q : ℚ) : Int := if q < 0 then -(roundedMagnitude q : Int) else roundedMagnitude q

theorem natAbs_div_den (q : ℚ) : (q.num.natAbs : ℚ) / q.den = |q| := by
  conv_rhs => rw [← Rat.num_div_den q]
  rw [abs_div, Nat.abs_cast, Nat.cast_natAbs, Int.cast_abs]

section
variable {p q : ℚ} {a b : Nat}

theorem roundedMagnitude_eq (hb : 0 < b) (h : |q| = a / b) :
    roundedMagnitude q = min (nearestMagnitude a b) infiniteMagnitude := by
  have hden : (q.den : ℚ) ≠ 0 := by exact_mod_cast q.den_nz
  have hcast : (b : ℚ) ≠ 0 := by exact_mod_cast hb.ne'
  rw [← natAbs_div_den, div_eq_div_iff hden hcast] at h
  unfold roundedMagnitude
  rw [nearestMagnitude_congr q.den_pos hb (by exact_mod_cast h)]

theorem roundedMagnitude_of_lt (h : roundedMagnitude q < infiniteMagnitude) :
    roundedMagnitude q = nearestMagnitude q.num.natAbs q.den := by
  unfold roundedMagnitude at h ⊢
  omega

theorem roundedMagnitude_neg (q : ℚ) : roundedMagnitude (-q) = roundedMagnitude q := by
  simp [roundedMagnitude]

theorem roundedMagnitude_mono (h : |p| ≤ |q|) : roundedMagnitude p ≤ roundedMagnitude q := by
  have hp : (0 : ℚ) < p.den := by exact_mod_cast p.den_pos
  have hq : (0 : ℚ) < q.den := by exact_mod_cast q.den_pos
  rw [← natAbs_div_den, ← natAbs_div_den, div_le_div_iff₀ hp hq] at h
  apply min_le_min_right
  exact nearestMagnitude_mono p.den_pos q.den_pos (by exact_mod_cast h)

theorem lt_roundedMagnitude_iff {k : Nat} (hk : k < infiniteMagnitude) :
    k < roundedMagnitude q ↔ midpoint k < |q| ∨ midpoint k = |q| ∧ k % 2 = 1 := by
  rw [← natAbs_div_den, ← lt_nearestMagnitude_iff_midpoint q.den_pos, roundedMagnitude, lt_min_iff]
  exact and_iff_left hk

theorem roundedMagnitude_zero : roundedMagnitude 0 = 0 := by
  simp [roundedMagnitude, nearestMagnitude]

theorem rounded_neg (q : ℚ) : rounded (-q) = -rounded q := by
  unfold rounded
  rw [roundedMagnitude_neg]
  rcases lt_trichotomy q 0 with hlt | rfl | hgt
  · rw [if_neg (by linarith), if_pos hlt, neg_neg]
  · simp [roundedMagnitude_zero]
  · rw [if_pos (by linarith), if_neg hgt.not_gt]

theorem rounded_mono : Monotone rounded := by
  intro p q h
  unfold rounded
  split_ifs with hp hq hq
  · have hle : |q| ≤ |p| := by
      rw [abs_of_neg hp, abs_of_neg hq]
      linarith
    have hmono := roundedMagnitude_mono hle
    omega
  · omega
  · linarith
  · have hle : |p| ≤ |q| := by
      rw [abs_of_nonneg (not_lt.mp hp), abs_of_nonneg (not_lt.mp hq)]
      exact h
    exact_mod_cast roundedMagnitude_mono hle

theorem rounded_div (a : Nat) (hb : 0 < b) :
    rounded (a / b) = min (nearestMagnitude a b) infiniteMagnitude := by
  have hnonneg : (0 : ℚ) ≤ a / b := by positivity
  unfold rounded
  rw [if_neg (not_lt.mpr hnonneg), roundedMagnitude_eq hb (abs_of_nonneg hnonneg)]

theorem rounded_signed (s : Bool) (q : ℚ) :
    rounded (signed s q) = if s then -rounded q else rounded q := by
  cases s
  · rfl
  · exact rounded_neg q

end

/-- The number whose weight is what a rational is rounded to. -/
structure Rounds (x : Float) (q : ℚ) : Prop where
  number : magnitude x ≤ infiniteMagnitude
  weight : weight x = rounded q

/-- A number at most one step of the weight away from a rational, or the infinity beyond it. -/
structure Near (x : Float) (q : ℚ) : Prop where
  number : magnitude x ≤ infiniteMagnitude
  below : -(infiniteMagnitude : Int) < weight x → ofWeight (weight x - 1) ≤ q
  above : weight x < infiniteMagnitude → q ≤ ofWeight (weight x + 1)

section
variable {x y : Float} {q : ℚ}

theorem IsNearest.rounds {s : Bool} {a b : Nat} (h : IsNearest x s a b) (hb : 0 < b) :
    Rounds x (signed s (a / b)) := by
  refine ⟨h.magnitude.trans_le (min_le_right _ _), ?_⟩
  rw [rounded_signed, rounded_div a hb, weight, h.sign, h.magnitude]

theorem rounds_exact (h : magnitude x ≤ infiniteMagnitude) : Rounds x (exact x) := by
  have hnearest : IsNearest x (isNegative x) (units (magnitude x)) finest :=
    ⟨rfl, by rw [nearestMagnitude_units, min_eq_left h]⟩
  rw [exact_eq]
  exact hnearest.rounds finest_pos

theorem Rounds.le {p : ℚ} (hx : Rounds x p) (hy : Rounds y q) (h : p ≤ q) : x ≤ y := by
  apply le_iff.mpr
  refine ⟨hx.number, hy.number, ?_⟩
  rw [hx.weight, hy.weight]
  exact rounded_mono h

theorem magnitude_near {m a b : Nat} (hb : 0 < b)
    (h : m = min (nearestMagnitude a b) infiniteMagnitude) :
    ofWeight ((m : Int) - 1) ≤ a / b ∧
      (m < infiniteMagnitude → (a / b : ℚ) ≤ ofWeight ((m : Int) + 1)) := by
  have hcast : (0 : ℚ) < b := by exact_mod_cast hb
  constructor
  · cases m with
    | zero =>
      have hnegative : ofWeight (((0 : Nat) : Int) - 1) ≤ ofWeight 0 :=
        (ofWeight_strictMono (by decide)).le
      exact (hnegative.trans_eq ofWeight_zero).trans (div_nonneg (Nat.cast_nonneg a) hcast.le)
    | succ m =>
      have hstep : ((m + 1 : Nat) : Int) - 1 = m := by omega
      have hunits := units_le_of_lt hb (show m < nearestMagnitude a b by omega)
      rw [hstep, ofWeight_natCast, div_le_div_iff₀ finest_cast_pos hcast]
      exact_mod_cast hunits
  · intro hlt
    have hstep : (m : Int) + 1 = (m + 1 : Nat) := by omega
    have hunits := le_units_of_lt hb (show nearestMagnitude a b < m + 1 by omega)
    rw [hstep, ofWeight_natCast, div_le_div_iff₀ hcast finest_cast_pos]
    exact_mod_cast hunits

theorem Rounds.near (h : Rounds x q) : Near x q := by
  obtain ⟨hlow, hhigh⟩ := magnitude_near q.den_pos (rfl : roundedMagnitude q = _)
  have hweight := h.weight
  rw [natAbs_div_den] at hlow hhigh
  unfold rounded at hweight
  by_cases hq : q < 0
  · rw [if_pos hq] at hweight
    rw [abs_of_neg hq] at hlow hhigh
    refine ⟨h.number, fun hlt => ?_, fun _ => ?_⟩
    · have hstep : Binary64.weight x - 1 = -((roundedMagnitude q : Int) + 1) := by omega
      have hle := hhigh (by omega)
      rw [hstep, ofWeight_neg]
      linarith
    · have hstep : Binary64.weight x + 1 = -((roundedMagnitude q : Int) - 1) := by omega
      rw [hstep, ofWeight_neg]
      linarith
  · rw [if_neg hq] at hweight
    rw [abs_of_nonneg (not_lt.mp hq)] at hlow hhigh
    exact ⟨h.number, fun _ => hweight ▸ hlow, fun hlt => hweight ▸ hhigh (by omega)⟩

theorem Near.nextDown_le {z : Float} (h : Near x q) (hz : magnitude z ≤ infiniteMagnitude)
    (hle : weight z ≤ weight x) (hnext : magnitude (nextDown z) < infiniteMagnitude) :
    exact (nextDown z) ≤ q := by
  obtain ⟨hlt, hstep⟩ := weight_nextDown_of_finite hz hnext
  rw [exact, hstep]
  exact (ofWeight_strictMono.monotone (Int.sub_le_sub_right hle 1)).trans
    (h.below (hlt.trans_le hle))

theorem Near.le_nextUp {z : Float} (h : Near x q) (hz : magnitude z ≤ infiniteMagnitude)
    (hle : weight x ≤ weight z) (hnext : magnitude (nextUp z) < infiniteMagnitude) :
    q ≤ exact (nextUp z) := by
  obtain ⟨hlt, hstep⟩ := weight_nextUp_of_finite hz hnext
  rw [exact, hstep]
  exact (h.above (hle.trans_lt hlt)).trans
    (ofWeight_strictMono.monotone (Int.add_le_add_right hle 1))

end

/-! ## Operations -/

section
variable {x y : Float}

theorem packed_unpack (h : magnitude x ≤ infiniteMagnitude) : packed x.toModel.unpack = x := by
  obtain ⟨u, hu, -, hpacked⟩ := exists_signed h
  obtain ⟨hsign, hmagnitude⟩ := hpacked (signOf x)
  rw [hu]
  exact eq_of_magnitude (hsign.trans (signOf_eq x)) hmagnitude

theorem signOf_neg (h : magnitude x ≤ infiniteMagnitude) : signOf (-x) = -signOf x := by
  unfold signOf
  rw [(neg_number h).1]
  cases isNegative x <;> rfl

theorem unpack_neg (h : magnitude x ≤ infiniteMagnitude) :
    (-x).toModel.unpack = UnpackedFloat.neg x.toModel.unpack := by
  have hsign := signOf_neg h
  have hmagnitude := (neg_number h).2
  -- both have the same magnitude, so they are of the same one of the four kinds
  have hcases := unpack_cases (-x)
  rw [hsign, hmagnitude] at hcases
  rcases unpack_cases x with ⟨hzero, hu⟩ | ⟨hs, hpos, hlt, hu⟩ | ⟨hinf, hu⟩ | ⟨hnan, -⟩
  · rcases hcases with ⟨-, hv⟩ | ⟨-, hpos, -⟩ | ⟨hinf, -⟩ | ⟨hnan, -⟩
    · rw [hu, hv]
      rfl
    · omega
    · exact absurd (hzero.symm.trans hinf) (by decide)
    · omega
  · rcases hcases with ⟨hzero, -⟩ | ⟨_, -, -, hv⟩ | ⟨hinf, -⟩ | ⟨hnan, -⟩
    · omega
    · rw [hu, hv]
      rfl
    · omega
    · omega
  · rcases hcases with ⟨hzero, -⟩ | ⟨-, -, hlt, -⟩ | ⟨-, hv⟩ | ⟨hnan, -⟩
    · exact absurd (hzero.symm.trans hinf) (by decide)
    · omega
    · rw [hu, hv]
      rfl
    · omega
  · omega

theorem unpacked_sub (f : Format) (u v : UnpackedFloat) :
    UnpackedFloat.sub f u v = UnpackedFloat.add f u (UnpackedFloat.neg v) := by
  cases u with
  | finite s m d hm =>
    cases v with
    | finite t n e hn =>
      have happly : ∀ k : Int, (-t).apply k = -t.apply k := by
        intro k
        cases t
        · exact (Int.neg_neg k).symm
        · rfl
      unfold UnpackedFloat.sub UnpackedFloat.neg UnpackedFloat.add
      dsimp only
      rw [happly, Int.sub_eq_add_neg]
    | _ => rfl
  | _ => cases v <;> rfl

theorem sub_eq (hy : magnitude y ≤ infiniteMagnitude) : x - y = x + -y := by
  have hadd : x + -y =
      packed (UnpackedFloat.add Format.binary64 x.toModel.unpack (-y).toModel.unpack) := rfl
  rw [hadd, unpack_neg hy, ← unpacked_sub]
  rfl

theorem exact_apply (x : Float) :
    exact x = ((signOf x).apply (units (magnitude x)) : Int) / finest := by
  rw [exact_eq, signed, signOf]
  cases isNegative x
  · rfl
  · show -((units (magnitude x) : ℚ) / finest) = ((-(units (magnitude x) : Int) : Int) : ℚ) / finest
    push_cast
    ring

theorem rounds_zero (s : Sign) : Rounds (packed (.zero s)) 0 := by
  have hrounds := (isNearest_zero s 1).rounds one_pos
  simpa [signed] using hrounds

theorem rounds_normalize (a : Int) {e : Int} {i j : Nat} (hij : e = (i : Int) - j) :
    Rounds (packed (UnpackedFloat.normalize Format.binary64 a e .positive))
      (a * 2 ^ i / 2 ^ j) := by
  have hround : ∀ (s : Sign) (n : Nat), 0 < n →
      Rounds (packed (UnpackedFloat.round Format.binary64 s n e))
        (signed (negative s) (n * 2 ^ i / 2 ^ j)) := by
    intro s n hn
    have hrounds := (isNearest_roundMantissa s hn hij).rounds (Nat.two_pow_pos j)
    push_cast at hrounds
    exact hrounds
  unfold UnpackedFloat.normalize
  rcases lt_trichotomy a 0 with hlt | rfl | hgt
  · have hvalue : ((-a).toNat : ℚ) = -a := by
      have hnat : (((-a).toNat : Int) : ℚ) = ((-a : Int) : ℚ) := by
        rw [Int.toNat_of_nonneg (by omega)]
      push_cast at hnat
      exact hnat
    have hrounds := hround .negative (-a).toNat (by omega)
    rw [compare_lt_iff_lt.mpr hlt]
    rw [hvalue] at hrounds
    simpa [signed, negative, neg_div] using hrounds
  · simpa using rounds_zero .positive
  · have hvalue : (a.toNat : ℚ) = a := by
      have hnat : ((a.toNat : Int) : ℚ) = (a : ℚ) := by rw [Int.toNat_of_nonneg hgt.le]
      exact hnat
    have hrounds := hround .positive a.toNat (by omega)
    rw [compare_gt_iff_gt.mpr hgt]
    rw [hvalue] at hrounds
    exact hrounds

theorem apply_mul (s : Sign) (a b : Int) : s.apply (a * b) = s.apply a * b := by
  cases s
  · exact (Int.neg_mul a b).symm
  · rfl

theorem rounds_add_finite (s t : Sign) {m n : Nat} (hm : 0 < m) (hn : 0 < n) (p q : Nat) :
    Rounds (packed (UnpackedFloat.add Format.binary64 (.finite s m ((p : Int) - depth) hm)
      (.finite t n ((q : Int) - depth) hn)))
      ((s.apply (m * 2 ^ p : Nat) + t.apply (n * 2 ^ q : Nat) : Int) / finest) := by
  have hshift : ∀ (r : Sign) (k j : Nat), min p q ≤ j →
      r.apply (k <<< (j - min p q) : Nat) * 2 ^ min p q = r.apply (k * 2 ^ j : Nat) := by
    intro r k j hj
    rw [← apply_mul]
    exact congrArg r.apply (by exact_mod_cast shiftLeft_sub_mul_pow k hj)
  have hrounds := rounds_normalize
    (s.apply (m <<< (p - min p q) : Nat) + t.apply (n <<< (q - min p q) : Nat))
    (rfl : ((min p q : Nat) : Int) - depth = (min p q : Nat) - depth)
  rw [add_aligned, ← hshift s m p (min_le_left p q), ← hshift t n q (min_le_right p q), ← add_mul,
    finest]
  push_cast at hrounds ⊢
  exact hrounds

theorem rounds_add (hx : magnitude x < infiniteMagnitude) (hy : magnitude y < infiniteMagnitude) :
    Rounds (x + y) (exact x + exact y) := by
  have hadd : x + y =
      packed (UnpackedFloat.add Format.binary64 x.toModel.unpack y.toModel.unpack) := rfl
  rcases unpack_of_finite hx with ⟨hzx, ux⟩ | ⟨px, ux⟩
  · rw [exact_of_zero hzx, zero_add]
    rcases unpack_of_finite hy with ⟨hzy, uy⟩ | ⟨py, uy⟩
    · rw [exact_of_zero hzy, hadd, ux, uy]
      cases signOf x <;> cases signOf y <;> exact rounds_zero _
    · have hsum : x + y = packed y.toModel.unpack := by
        rw [hadd, ux, uy]
        rfl
      rw [hsum, packed_unpack hy.le]
      exact rounds_exact hy.le
  · rcases unpack_of_finite hy with ⟨hzy, uy⟩ | ⟨py, uy⟩
    · have hsum : x + y = packed x.toModel.unpack := by
        rw [hadd, ux, uy]
        rfl
      rw [hsum, packed_unpack hx.le, exact_of_zero hzy, add_zero]
      exact rounds_exact hx.le
    · have hsum := rounds_add_finite (signOf x) (signOf y) px py (magnitude x / 2 ^ 52 - 1)
        (magnitude y / 2 ^ 52 - 1)
      rw [← ux, ← uy, ← hadd] at hsum
      rw [exact_apply, exact_apply, ← add_div, ← Int.cast_add]
      exact hsum

theorem rounds_sub (hx : magnitude x < infiniteMagnitude) (hy : magnitude y < infiniteMagnitude) :
    Rounds (x - y) (exact x - exact y) := by
  rw [sub_eq hy.le, sub_eq_add_neg, ← exact_neg hy.le]
  exact rounds_add hx ((neg_number hy.le).2.trans_lt hy)

theorem signed_mul (s t : Sign) (p q : ℚ) :
    signed (negative (s * t)) (p * q) = signed (negative s) p * signed (negative t) q := by
  have hsign : negative (s * t) = (negative s ^^ negative t) := by cases s <;> cases t <;> rfl
  rw [hsign]
  cases s <;> cases t <;> simp [signed, negative]

theorem signed_div (s t : Sign) (p q : ℚ) :
    signed (negative (s / t)) (p / q) = signed (negative s) p / signed (negative t) q := by
  have hsign : negative (s / t) = (negative s ^^ negative t) := by cases s <;> cases t <;> rfl
  rw [hsign]
  cases s <;> cases t <;> simp [signed, negative, neg_div, div_neg]

theorem rounds_mul (hx : magnitude x < infiniteMagnitude) (hy : magnitude y < infiniteMagnitude) :
    Rounds (x * y) (exact x * exact y) := by
  have hrounds := (isNearest_mul_signed hx hy).rounds (Nat.mul_pos finest_pos finest_pos)
  rw [exact_eq, exact_eq, ← signOf_eq x, ← signOf_eq y, ← signed_mul, div_mul_div_comm]
  push_cast at hrounds
  exact hrounds

theorem rounds_div (hx : magnitude x < infiniteMagnitude) (hy : magnitude y < infiniteMagnitude)
    (hpos : 0 < magnitude y) : Rounds (x / y) (exact x / exact y) := by
  have hrounds := (isNearest_div_signed hx hy hpos).rounds (units_pos hpos)
  rwa [exact_eq, exact_eq, ← signOf_eq x, ← signOf_eq y, ← signed_div,
    div_div_div_cancel_right₀ finest_cast_pos.ne']

/-! ## Monotonicity -/

theorem unpack_infinite (h : magnitude x = infiniteMagnitude) :
    x.toModel.unpack = .infinity (signOf x) := by
  have hpos : 0 < infiniteMagnitude := by decide
  rcases unpack_cases x with ⟨hzero, -⟩ | ⟨-, -, hlt, -⟩ | ⟨-, hu⟩ | ⟨hnan, -⟩
  · omega
  · omega
  · exact hu
  · omega

theorem mul_infinite (hx : Finite x) (hpos : 0 < magnitude x)
    (hy : magnitude y = infiniteMagnitude) : x * y = y := by
  have hmul : x * y =
      packed (UnpackedFloat.mul Format.binary64 x.toModel.unpack y.toModel.unpack) := rfl
  rcases hx.unpack with ⟨hzero, -⟩ | ⟨_, ux⟩
  · exact absurd hzero hpos.ne'
  · have hinfinite : x * y = packed y.toModel.unpack := by
      rw [hmul, ux, unpack_infinite hy]
      cases signOf y <;> rfl
    rw [hinfinite, packed_unpack hy.le]

theorem infinite_div_pos (hx : magnitude x = infiniteMagnitude) (hy : Finite y)
    (hpos : 0 < magnitude y) : x / y = x := by
  have hdiv : x / y =
      packed (UnpackedFloat.div Format.binary64 x.toModel.unpack y.toModel.unpack) := rfl
  rcases hy.unpack with ⟨hzero, -⟩ | ⟨_, uy⟩
  · exact absurd hzero hpos.ne'
  · have hinfinite : x / y = packed x.toModel.unpack := by
      rw [hdiv, uy, unpack_infinite hx]
      cases signOf x <;> rfl
    rw [hinfinite, packed_unpack hx.le]

/-- What keeps the infinities and rounds a monotone function on the finite numbers is monotone. -/
theorem le_of_rounds {f : Float → Float} {g : ℚ → ℚ} (hg : Monotone g)
    (hfinite : ∀ z, magnitude z < infiniteMagnitude → Rounds (f z) (g (exact z)))
    (hinfinite : ∀ z, magnitude z = infiniteMagnitude → f z = z) (h : x ≤ y) : f x ≤ f y := by
  obtain ⟨hx, hy, hle⟩ := le_iff.mp h
  have hxw := natAbs_weight x
  have hyw := natAbs_weight y
  -- an infinity stays in place, and what is rounded lies between the infinities
  rcases hx.lt_or_eq with hx | hx <;> rcases hy.lt_or_eq with hy | hy
  · exact (hfinite x hx).le (hfinite y hy) (hg ((le_iff_exact hx hy).mp h))
  · have hnumber := (hfinite x hx).number
    have hbound := (weight_le hnumber).2
    rw [hinfinite y hy]
    exact le_iff.mpr ⟨hnumber, hy.le, by omega⟩
  · have hnumber := (hfinite y hy).number
    have hbound := (weight_le hnumber).1
    rw [hinfinite x hx]
    exact le_iff.mpr ⟨hx.le, hnumber, by omega⟩
  · rw [hinfinite x hx, hinfinite y hy]
    exact h

theorem sub_le_sub_finite {z : Float} (hx : magnitude x < infiniteMagnitude)
    (hy : magnitude y < infiniteMagnitude) (hz : magnitude z < infiniteMagnitude) (h : x ≤ y) :
    x - z ≤ y - z :=
  (rounds_sub hx hz).le (rounds_sub hy hz) (sub_le_sub_right ((le_iff_exact hx hy).mp h) _)

theorem mul_le_mul_pos {z : Float} (hz : magnitude z < infiniteMagnitude) (hpos : 0 < weight z)
    (h : x ≤ y) : z * x ≤ z * y := by
  have hsign : isNegative z = false := by
    unfold weight at hpos
    cases hs : isNegative z with
    | false => rfl
    | true =>
      rw [hs] at hpos
      simp only [if_true] at hpos
      omega
  have hmagnitude : 0 < magnitude z := by
    rw [← natAbs_weight]
    omega
  apply le_of_rounds (f := (z * ·)) (g := (exact z * ·)) _ _ _ h
  · intro p q hpq
    exact mul_le_mul_of_nonneg_left hpq (exact_pos.mpr hpos).le
  · intro w hw
    exact rounds_mul hz hw
  · intro w hw
    exact mul_infinite ⟨hsign, hz⟩ hmagnitude hw

theorem div_le_div_pos {z : Float} (hz : Finite z) (hpos : 0 < magnitude z) (h : x ≤ y) :
    x / z ≤ y / z := by
  apply le_of_rounds (f := (· / z)) (g := (· / exact z)) _ _ _ h
  · intro p q hpq
    have hweight : 0 < weight z := by
      rw [weight, hz.sign]
      simpa using hpos
    exact div_le_div_of_nonneg_right hpq (exact_pos.mpr hweight).le
  · intro w hw
    exact rounds_div hw hz.finite hpos
  · intro w hw
    exact infinite_div_pos hw hz hpos

theorem neg_le_neg (h : x ≤ y) : -y ≤ -x := by
  obtain ⟨hx, hy, hle⟩ := le_iff.mp h
  apply le_iff.mpr
  rw [(neg_number hx).2, (neg_number hy).2, weight_neg hx, weight_neg hy]
  exact ⟨hy, hx, by omega⟩

theorem unpacked_neg_mul_neg (f : Format) (u v : UnpackedFloat) :
    UnpackedFloat.mul f (UnpackedFloat.neg u) (UnpackedFloat.neg v) = UnpackedFloat.mul f u v := by
  have hsign : ∀ s t : Sign, -s * -t = s * t := by
    intro s t
    cases s <;> cases t <;> rfl
  cases u <;> cases v <;> dsimp only [UnpackedFloat.mul, UnpackedFloat.neg]
  all_goals rw [hsign]

theorem neg_mul_neg (hx : magnitude x ≤ infiniteMagnitude) (hy : magnitude y ≤ infiniteMagnitude) :
    -x * -y = x * y := by
  have hmul : -x * -y = packed (UnpackedFloat.mul Format.binary64 (-x).toModel.unpack
      (-y).toModel.unpack) := rfl
  rw [hmul, unpack_neg hx, unpack_neg hy, unpacked_neg_mul_neg]
  rfl

theorem mul_le_mul_neg {z : Float} (hz : magnitude z < infiniteMagnitude) (hneg : weight z < 0)
    (h : x ≤ y) : z * y ≤ z * x := by
  obtain ⟨hx, hy, -⟩ := le_iff.mp h
  rw [← neg_mul_neg hz.le hx, ← neg_mul_neg hz.le hy]
  apply mul_le_mul_pos ((neg_number hz.le).2.trans_lt hz) _ (neg_le_neg h)
  rw [weight_neg hz.le]
  omega

end

end Recoding.Binary64
