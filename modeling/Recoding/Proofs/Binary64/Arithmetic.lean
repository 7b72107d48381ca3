import Recoding.Proofs.Binary64.Packed

/-!
# Arithmetic of doubles

Sums, products and quotients of nonnegative doubles have the magnitude that is nearest to the
exact result, up to infinity. So they grow with their operands.
-/

namespace Recoding.Binary64

open Float.Model Float.Model.UnpackedFloat

/-! ## Nonnegative doubles -/

/-- A number that is not below zero, but may be the negative zero. -/
structure Nonneg (x : Float) : Prop where
  number : magnitude x ≤ infiniteMagnitude
  sign : isNegative x = true → magnitude x = 0

theorem exponent_eq (m : Nat) : exponent m = ((m / 2 ^ 52 - 1 : Nat) : Int) - depth := by
  have hdepth := depth_eq
  unfold exponent
  omega

theorem signOf_eq (x : Float) : negative (signOf x) = isNegative x := by
  unfold signOf
  cases isNegative x <;> rfl

section
variable {x y : Float}

theorem Nonneg.unpack (hx : Nonneg x) :
    (magnitude x = 0 ∧ x.toModel.unpack = .zero (signOf x)) ∨
    (∃ h : 0 < significand (magnitude x), magnitude x < infiniteMagnitude ∧
      isNegative x = false ∧ x.toModel.unpack = .finite .positive (significand (magnitude x))
        (((magnitude x / 2 ^ 52 - 1 : Nat) : Int) - depth) h) ∨
    (magnitude x = infiniteMagnitude ∧ isNegative x = false ∧
      x.toModel.unpack = .infinity .positive) := by
  have hpositive : 0 < magnitude x → isNegative x = false ∧ signOf x = .positive := by
    intro hpos
    have hsign : isNegative x = false := Bool.eq_false_iff.mpr fun h => hpos.ne' (hx.sign h)
    exact ⟨hsign, by rw [signOf, hsign]; rfl⟩
  rcases unpack_cases x with hzero | ⟨hs, hpos, hlt, hu⟩ | ⟨hinf, hu⟩ | ⟨hnan, -⟩
  · exact Or.inl hzero
  · obtain ⟨hsign, hpositive⟩ := hpositive hpos
    rw [hpositive, exponent_eq] at hu
    exact Or.inr (Or.inl ⟨hs, hlt, hsign, hu⟩)
  · obtain ⟨hsign, hpositive⟩ := hpositive (by rw [hinf]; decide)
    rw [hpositive] at hu
    exact Or.inr (Or.inr ⟨hinf, hsign, hu⟩)
  · exact absurd hx.number (not_le.mpr hnan)

theorem exists_signed (h : magnitude x ≤ infiniteMagnitude) : ∃ u : Sign → UnpackedFloat,
    x.toModel.unpack = u (signOf x) ∧ (∀ s, UnpackedFloat.neg (u s) = u (-s)) ∧
      ∀ s, isNegative (packed (u s)) = negative s ∧ magnitude (packed (u s)) = magnitude x := by
  rcases unpack_cases x with ⟨hzero, hu⟩ | ⟨hs, -, hlt, hu⟩ | ⟨hinf, hu⟩ | ⟨hnan, -⟩
  · rw [hzero]
    exact ⟨.zero, hu, fun _ => rfl, packed_zero⟩
  · rw [exponent_eq] at hu
    refine ⟨fun s => .finite s _ _ hs, hu, fun _ => rfl, fun s => ?_⟩
    obtain ⟨hsign, hmagnitude⟩ := packed_finite s hs (significand_lt _) (significand_normal _) rfl
    rw [binade_significand, min_eq_left hlt.le] at hmagnitude
    exact ⟨hsign, hmagnitude⟩
  · rw [hinf]
    exact ⟨.infinity, hu, fun _ => rfl, packed_infinity⟩
  · exact absurd h (not_le.mpr hnan)

theorem Nonneg.packed_unpack (hx : Nonneg x) : isNegative (packed x.toModel.unpack) =
    isNegative x ∧ magnitude (packed x.toModel.unpack) = magnitude x := by
  obtain ⟨u, hu, -, hpacked⟩ := exists_signed hx.number
  obtain ⟨hsign, hmagnitude⟩ := hpacked (signOf x)
  rw [hu, hsign, hmagnitude, signOf_eq]
  exact ⟨rfl, rfl⟩

theorem isNearest_of_infinite {s : Bool} {a : Nat} (hs : isNegative x = s)
    (hx : magnitude x = infiniteMagnitude) (ha : units infiniteMagnitude ≤ a) :
    IsNearest x s a finest := by
  refine ⟨hs, hx.trans (min_eq_right ?_).symm⟩
  have hle := nearestMagnitude_mono finest_pos finest_pos (Nat.mul_le_mul_right finest ha)
  rwa [nearestMagnitude_units] at hle

theorem isNearest_of_unpack {s : Bool} {a : Nat} (hy : Nonneg y) (hx : x = packed y.toModel.unpack)
    (hs : isNegative y = s) (ha : units (magnitude y) = a) : IsNearest x s a finest := by
  obtain ⟨hsign, hmagnitude⟩ := hy.packed_unpack
  subst hs ha
  rw [hx]
  exact ⟨hsign, by rw [hmagnitude, nearestMagnitude_units, min_eq_left hy.number]⟩

theorem shiftLeft_sub_mul_pow (m : Nat) {least p : Nat} (h : least ≤ p) :
    m <<< (p - least) * 2 ^ least = m * 2 ^ p := by
  rw [Nat.shiftLeft_eq, mul_assoc, ← pow_add, Nat.sub_add_cancel h]

theorem add_aligned (s t : Sign) {m n : Nat} (hm : 0 < m) (hn : 0 < n) (p q : Nat) :
    UnpackedFloat.add Format.binary64 (.finite s m ((p : Int) - depth) hm)
      (.finite t n ((q : Int) - depth) hn) = UnpackedFloat.normalize Format.binary64
        (s.apply (m <<< (p - min p q) : Nat) + t.apply (n <<< (q - min p q) : Nat))
        ((min p q : Nat) - depth) .positive := by
  have hleast : ((min p q : Nat) : Int) - depth = min ((p : Int) - depth) ((q : Int) - depth) := by
    omega
  have hp : p - min p q = ((p : Int) - depth - ((min p q : Nat) - depth)).toNat := by omega
  have hq : q - min p q = ((q : Int) - depth - ((min p q : Nat) - depth)).toNat := by omega
  rw [hp, hq, hleast]
  rfl

theorem add_finite (m n : Nat) (hm : 0 < m) (hn : 0 < n) (p q : Nat) :
    IsNearest (packed (UnpackedFloat.add Format.binary64
      (.finite .positive m ((p : Int) - depth) hm) (.finite .positive n ((q : Int) - depth) hn)))
      false (m * 2 ^ p + n * 2 ^ q) finest := by
  have hpos : 0 < m <<< (p - min p q) + n <<< (q - min p q) := by
    rw [Nat.shiftLeft_eq, Nat.shiftLeft_eq]
    positivity
  have hvalue : (m <<< (p - min p q) + n <<< (q - min p q)) * 2 ^ min p q =
      m * 2 ^ p + n * 2 ^ q := by
    rw [add_mul, shiftLeft_sub_mul_pow m (min_le_left p q),
      shiftLeft_sub_mul_pow n (min_le_right p q)]
  rw [add_aligned, ← hvalue]
  exact isNearest_normalize hpos rfl

theorem nearestMagnitude_zero (b : Nat) : nearestMagnitude 0 b = 0 := by
  simp [nearestMagnitude]

theorem isNearest_zero (s : Sign) (b : Nat) : IsNearest (packed (.zero s)) (negative s) 0 b :=
  ⟨(packed_zero s).1, by rw [(packed_zero s).2, nearestMagnitude_zero, Nat.zero_min]⟩

theorem isNearest_add (hx : Nonneg x) (hy : Nonneg y) :
    IsNearest (x + y) (isNegative x && isNegative y)
      (units (magnitude x) + units (magnitude y)) finest := by
  have hadd : x + y =
      packed (UnpackedFloat.add Format.binary64 x.toModel.unpack y.toModel.unpack) := rfl
  rcases hx.unpack with ⟨hzx, ux⟩ | ⟨px, hfx, hsx, ux⟩ | ⟨hix, hsx, ux⟩
  · rcases hy.unpack with ⟨hzy, uy⟩ | ⟨py, hfy, hsy, uy⟩ | ⟨hiy, hsy, uy⟩
    · rw [hadd, ux, uy, hzx, hzy, units_zero]
      unfold signOf
      cases isNegative x <;> cases isNegative y
      · exact isNearest_zero .positive finest
      · exact isNearest_zero .positive finest
      · exact isNearest_zero .positive finest
      · exact isNearest_zero .negative finest
    · refine isNearest_of_unpack hy ?_ (by rw [hsy, Bool.and_false])
        (by rw [hzx, units_zero, Nat.zero_add])
      rw [hadd, ux, uy]
      rfl
    · refine isNearest_of_infinite ?_ ?_ (hiy ▸ Nat.le_add_left _ _) <;> rw [hadd, ux, uy]
      · rw [hsy, Bool.and_false]
        exact (packed_infinity .positive).1
      · exact (packed_infinity .positive).2
  · rcases hy.unpack with ⟨hzy, uy⟩ | ⟨py, hfy, hsy, uy⟩ | ⟨hiy, hsy, uy⟩
    · refine isNearest_of_unpack hx ?_ (by rw [hsx, Bool.false_and])
        (by rw [hzy, units_zero, Nat.add_zero])
      rw [hadd, ux, uy]
      rfl
    · rw [hadd, ux, uy, hsx, Bool.false_and]
      exact add_finite _ _ px py _ _
    · refine isNearest_of_infinite ?_ ?_ (hiy ▸ Nat.le_add_left _ _) <;> rw [hadd, ux, uy]
      · rw [hsy, Bool.and_false]
        exact (packed_infinity .positive).1
      · exact (packed_infinity .positive).2
  · have hsum : x + y = packed (.infinity .positive) := by
      rw [hadd, ux]
      rcases hy.unpack with ⟨hzy, uy⟩ | ⟨py, hfy, hsy, uy⟩ | ⟨hiy, hsy, uy⟩ <;> rw [uy] <;> rfl
    refine isNearest_of_infinite ?_ ?_ (hix ▸ Nat.le_add_right _ _) <;> rw [hsum]
    · rw [hsx, Bool.false_and]
      exact (packed_infinity .positive).1
    · exact (packed_infinity .positive).2

structure Finite (x : Float) : Prop where
  sign : isNegative x = false
  finite : magnitude x < infiniteMagnitude

theorem Finite.nonneg (hx : Finite x) : Nonneg x :=
  ⟨hx.finite.le, fun h => by rw [hx.sign] at h; cases h⟩

theorem Finite.signOf_eq (hx : Finite x) : signOf x = .positive := by
  rw [signOf, hx.sign]
  rfl

theorem unpack_of_finite (hx : magnitude x < infiniteMagnitude) :
    (magnitude x = 0 ∧ x.toModel.unpack = .zero (signOf x)) ∨
      ∃ h : 0 < significand (magnitude x), x.toModel.unpack = .finite (signOf x)
        (significand (magnitude x)) (((magnitude x / 2 ^ 52 - 1 : Nat) : Int) - depth) h := by
  rcases unpack_cases x with hzero | ⟨hs, -, -, hu⟩ | ⟨hinf, -⟩ | ⟨hnan, -⟩
  · exact Or.inl hzero
  · rw [exponent_eq] at hu
    exact Or.inr ⟨hs, hu⟩
  · exact absurd hinf hx.ne
  · exact absurd hnan hx.not_gt

theorem Finite.unpack (hx : Finite x) : (magnitude x = 0 ∧ x.toModel.unpack = .zero .positive) ∨
    ∃ h : 0 < significand (magnitude x), x.toModel.unpack = .finite .positive
      (significand (magnitude x)) (((magnitude x / 2 ^ 52 - 1 : Nat) : Int) - depth) h := by
  have hcases := unpack_of_finite hx.finite
  rwa [hx.signOf_eq] at hcases

theorem mul_finite (s t : Sign) {m n : Nat} (hm : 0 < m) (hn : 0 < n) {d e : Int}
    (h : d + e ≤ -1074 ∨ 2 ^ 52 ≤ m * n) {i j : Nat} (hij : d + e = (i : Int) - j) :
    IsNearest (packed (UnpackedFloat.mul Format.binary64 (.finite s m d hm)
      (.finite t n e hn))) (negative (s * t)) (m * n * 2 ^ i) (2 ^ j) := by
  have hlog : 2 ^ 52 ≤ m * n → 52 ≤ (m * n).log2 :=
    (Nat.le_log2 (Nat.mul_pos hm hn).ne').mpr
  have hround := isNearest_round (s * t) one_pos (standsFor_exact (m * n)) (e := d + e)
    (by omega) hij
  rw [one_mul] at hround
  exact hround

theorem isNearest_mul_signed (hx : magnitude x < infiniteMagnitude)
    (hy : magnitude y < infiniteMagnitude) :
    IsNearest (x * y) (negative (signOf x * signOf y)) (units (magnitude x) * units (magnitude y))
      (finest * finest) := by
  have hmul : x * y =
      packed (UnpackedFloat.mul Format.binary64 x.toModel.unpack y.toModel.unpack) := rfl
  rw [hmul]
  rcases unpack_of_finite hx with ⟨hzx, ux⟩ | ⟨px, ux⟩
  · rw [hzx, units_zero, Nat.zero_mul, ux]
    rcases unpack_of_finite hy with ⟨-, uy⟩ | ⟨_, uy⟩ <;> rw [uy] <;> exact isNearest_zero _ _
  · rcases unpack_of_finite hy with ⟨hzy, uy⟩ | ⟨py, uy⟩
    · rw [hzy, units_zero, Nat.mul_zero, ux, uy]
      exact isNearest_zero _ _
    · have hdepth := depth_eq
      have hnormal : ((magnitude x / 2 ^ 52 - 1 : Nat) : Int) - depth +
          (((magnitude y / 2 ^ 52 - 1 : Nat) : Int) - depth) ≤ -1074 ∨
            2 ^ 52 ≤ significand (magnitude x) * significand (magnitude y) := by
        rcases significand_normal (magnitude x) with hlow | hhigh
        · rcases significand_normal (magnitude y) with hlow' | hhigh
          · exact Or.inl (by omega)
          · exact Or.inr (hhigh.trans (Nat.le_mul_of_pos_left _ px))
        · exact Or.inr (hhigh.trans (Nat.le_mul_of_pos_right _ py))
      have hvalue : units (magnitude x) * units (magnitude y) =
          significand (magnitude x) * significand (magnitude y) *
            2 ^ (magnitude x / 2 ^ 52 - 1 + (magnitude y / 2 ^ 52 - 1)) := by
        unfold units
        ring
      rw [ux, uy, hvalue, finest, ← pow_add]
      exact mul_finite _ _ px py hnormal (by omega)

theorem isNearest_mul (hx : Finite x) (hy : Finite y) :
    IsNearest (x * y) false (units (magnitude x) * units (magnitude y)) (finest * finest) := by
  have hmul := isNearest_mul_signed hx.finite hy.finite
  rwa [hx.signOf_eq, hy.signOf_eq] at hmul

theorem div_finite (s r : Sign) {m n : Nat} (hm : 0 < m) (hn : 0 < n) (p q : Nat) :
    IsNearest (packed (UnpackedFloat.div Format.binary64
      (.finite s m ((p : Int) - depth) hm) (.finite r n ((q : Int) - depth) hn)))
      (negative (s / r)) (m * 2 ^ p) (n * 2 ^ q) := by
  have hdepth := depth_eq
  obtain ⟨e, he⟩ : ∃ e, min ((p : Int) - depth - (q - depth))
      (max ((m.log2 : Int) + 1 + (p - depth) - (n.log2 + 1 + (q - depth)) - 53) (-1074)) = e :=
    ⟨_, rfl⟩
  obtain ⟨t, ht⟩ := Int.eq_ofNat_of_zero_le (show 0 ≤ (p : Int) - depth - (q - depth) - e by omega)
  have hshift : ((p : Int) - depth - (q - depth) - e).toNat = t := by omega
  have hdiv : UnpackedFloat.div Format.binary64 (.finite s m ((p : Int) - depth) hm)
      (.finite r n ((q : Int) - depth) hn) =
      roundWithAccuracy Format.binary64 (s / r) (m <<< t / n) e
        (accuracyOfFraction (m <<< t % n) n) := by
    rw [← hshift, ← he]
    rfl
  -- unless the quotient is subnormal, it has as many bits as a significand
  have hbits : e ≤ -1074 ∨ 52 ≤ (m <<< t / n).log2 := by
    rcases le_or_gt e (-1074) with hsmall | hnormal
    · exact Or.inl hsmall
    · have hlong : 2 ^ 52 * n ≤ m <<< t := by
        calc 2 ^ 52 * n ≤ 2 ^ 52 * 2 ^ (n.log2 + 1) :=
              Nat.mul_le_mul_left _ Nat.lt_log2_self.le
          _ = 2 ^ (52 + (n.log2 + 1)) := (pow_add 2 _ _).symm
          _ ≤ 2 ^ (m.log2 + t) := Nat.pow_le_pow_right (by decide) (by omega)
          _ = 2 ^ m.log2 * 2 ^ t := pow_add 2 _ _
          _ ≤ m <<< t := by
              rw [Nat.shiftLeft_eq]
              exact Nat.mul_le_mul_right _ (Nat.log2_self_le hm.ne')
      have hquotient : 2 ^ 52 ≤ m <<< t / n := (Nat.le_div_iff_mul_le hn).mpr hlong
      exact Or.inr ((Nat.le_log2 (by omega)).mpr hquotient)
  have hround := isNearest_round (s / r) hn (standsFor_fraction (m <<< t) hn) (e := e)
    (by omega) (i := p) (j := q + t) (by omega)
  rw [hdiv]
  refine ⟨hround.sign, hround.magnitude.trans ?_⟩
  rw [nearestMagnitude_congr (Nat.mul_pos hn (Nat.two_pow_pos _))
    (Nat.mul_pos hn (Nat.two_pow_pos _))]
  rw [Nat.shiftLeft_eq, pow_add]
  ring

theorem isNearest_div_signed (hx : magnitude x < infiniteMagnitude)
    (hy : magnitude y < infiniteMagnitude) (hpos : 0 < magnitude y) :
    IsNearest (x / y) (negative (signOf x / signOf y)) (units (magnitude x))
      (units (magnitude y)) := by
  have hdiv : x / y =
      packed (UnpackedFloat.div Format.binary64 x.toModel.unpack y.toModel.unpack) := rfl
  rcases unpack_of_finite hy with ⟨hzy, -⟩ | ⟨py, uy⟩
  · exact absurd hzy hpos.ne'
  · rw [hdiv, uy]
    rcases unpack_of_finite hx with ⟨hzx, ux⟩ | ⟨px, ux⟩
    · rw [hzx, units_zero, ux]
      exact isNearest_zero _ _
    · rw [ux]
      exact div_finite _ _ px py _ _

theorem isNearest_div (hx : Finite x) (hy : Finite y) (hpos : 0 < magnitude y) :
    IsNearest (x / y) false (units (magnitude x)) (units (magnitude y)) := by
  have hdiv := isNearest_div_signed hx.finite hy.finite hpos
  rwa [hx.signOf_eq, hy.signOf_eq] at hdiv

/-! ## Counts -/

def one : Float := .ofBits 0x3FF0000000000000

theorem finite_one : Finite one := ⟨by decide, by decide⟩

theorem units_one : units (magnitude one) = finest := by
  have hmagnitude : magnitude one = 1022 * 2 ^ 52 + 2 ^ 52 := by decide
  have hpow : 52 + 1022 = depth := by rw [depth_eq]
  rw [hmagnitude, units_add (by decide) (Or.inr le_rfl), finest, ← hpow,
    Nat.pow_add 2 52 1022]

theorem ofCount_of_lt {n : Nat} (h : n < 2 ^ 53) :
    ofCount n = packed (UnpackedFloat.normalize Format.binary64 n 0 .positive) * one := by
  have hnat : n.toUInt64.toNat = n := by
    rw [Nat.toUInt64_eq, UInt64.toNat_ofNat', Nat.mod_eq_of_lt (h.trans (by decide))]
  have hfloat : n.toUInt64.toFloat =
      packed (UnpackedFloat.normalize Format.binary64 (n.toUInt64.toNat : Nat) 0 .positive) := rfl
  show Float.ofScientific n false 0 = _
  unfold Float.ofScientific
  rw [dif_pos ⟨h, by decide⟩]
  rw [hnat] at hfloat
  rw [← hfloat]
  rfl

theorem ofCount_of_le {n : Nat} (h : 2 ^ 53 ≤ n) (hpos : 0 < n <<< 53) :
    ofCount n = packed (UnpackedFloat.mul Format.binary64 (.finite .positive (n <<< 53) (-53) hpos)
      (.finite .positive 1 0 one_pos)) := by
  have hscientific : UnpackedFloat.ofScientific Format.binary64 n 0 =
      UnpackedFloat.mul Format.binary64 (.finite .positive (n <<< 53) (-53) hpos)
        (.finite .positive 1 0 one_pos) := by
    unfold UnpackedFloat.ofScientific
    rw [dif_neg (by omega), if_neg (by decide), if_neg (by simp), if_pos le_rfl]
    rfl
  show Float.ofScientific n false 0 = _
  unfold Float.ofScientific
  rw [dif_neg (by omega), ← hscientific]
  rfl

theorem isNearest_mul_one (hx : Finite x) {a b : Nat} (h : IsNearest x false a b) :
    IsNearest (x * one) false a b := by
  have hmul := isNearest_mul hx finite_one
  have hcancel : units (magnitude x) * finest * finest = units (magnitude x) * (finest * finest) :=
    mul_assoc _ _ _
  refine ⟨hmul.sign, ?_⟩
  rw [hmul.magnitude, units_one, nearestMagnitude_congr (Nat.mul_pos finest_pos finest_pos)
    finest_pos hcancel, nearestMagnitude_units, min_eq_left hx.finite.le, h.magnitude]

theorem nearestMagnitude_lt_infinite {n : Nat} (h : n ≤ 2 ^ 64) :
    nearestMagnitude n 1 < infiniteMagnitude :=
  (nearestMagnitude_mono one_pos one_pos (Nat.mul_le_mul_right 1 h)).trans_lt (by decide)

theorem isNearest_ofCount (n : Nat) : IsNearest (ofCount n) false n 1 := by
  rcases lt_or_ge n (2 ^ 53) with hlt | hge
  · have hsmall : IsNearest (packed (UnpackedFloat.normalize Format.binary64 n 0 .positive)) false
        n 1 := by
      rcases Nat.eq_zero_or_pos n with rfl | hpos
      · exact isNearest_zero .positive 1
      · simpa using isNearest_normalize hpos (e := 0) (i := 0) (j := 0) rfl
    have hfinite := nearestMagnitude_lt_infinite (n := n) (by omega)
    rw [ofCount_of_lt hlt]
    refine isNearest_mul_one ⟨hsmall.sign, ?_⟩ hsmall
    rw [hsmall.magnitude]
    exact (min_le_left _ _).trans_lt hfinite
  · have hpos : 0 < n <<< 53 := by
      rw [Nat.shiftLeft_eq]
      positivity
    rw [ofCount_of_le hge hpos]
    have hmul := mul_finite .positive .positive hpos one_pos (d := -53) (e := 0) (i := 0) (j := 53)
      (by rw [Nat.shiftLeft_eq]; omega) (by omega)
    refine ⟨hmul.sign, hmul.magnitude.trans ?_⟩
    rw [nearestMagnitude_congr (by decide) one_pos]
    rw [Nat.shiftLeft_eq]
    ring

end

theorem finite_ofCount {n : Nat} (h : n ≤ 2 ^ 64) : Finite (ofCount n) := by
  have hnearest := isNearest_ofCount n
  refine ⟨hnearest.sign, ?_⟩
  rw [hnearest.magnitude]
  exact (min_le_left _ _).trans_lt (nearestMagnitude_lt_infinite h)

theorem ofCount_pos {n : Nat} (h : 0 < n) : 0 < magnitude (ofCount n) := by
  have hone : 0 < nearestMagnitude 1 1 := by decide
  have hle := nearestMagnitude_mono one_pos one_pos (Nat.mul_le_mul_right 1 h)
  rw [(isNearest_ofCount n).magnitude]
  exact lt_min (hone.trans_le hle) (by decide)

/-! ## Monotonicity -/

/-- Nonnegative numbers in order, none of them the negative zero. -/
structure Below (x y : Float) : Prop where
  left : isNegative x = false
  right : isNegative y = false
  magnitude_le : magnitude x ≤ magnitude y
  number : magnitude y ≤ infiniteMagnitude

section
variable {x y z w : Float}

theorem Below.nonneg_left (h : Below x y) : Nonneg x :=
  ⟨h.magnitude_le.trans h.number, fun hs => by rw [h.left] at hs; cases hs⟩

theorem Below.nonneg_right (h : Below x y) : Nonneg y :=
  ⟨h.number, fun hs => by rw [h.right] at hs; cases hs⟩

theorem Below.le (h : Below x y) : x ≤ y := by
  refine le_iff.mpr ⟨h.nonneg_left.number, h.number, ?_⟩
  have hle := h.magnitude_le
  unfold weight
  rw [h.left, h.right]
  simpa using hle

theorem IsNearest.below {a b c d : Nat} (hx : IsNearest x false a b) (hy : IsNearest y false c d)
    (hb : 0 < b) (hd : 0 < d) (h : a * d ≤ c * b) : Below x y := by
  have hle := nearestMagnitude_mono hb hd h
  refine ⟨hx.sign, hy.sign, ?_, ?_⟩
  · rw [hx.magnitude, hy.magnitude]
    exact min_le_min_right _ hle
  · rw [hy.magnitude]
    exact min_le_right _ _

theorem below_ofCount {m n : Nat} (h : m ≤ n) : Below (ofCount m) (ofCount n) :=
  (isNearest_ofCount m).below (isNearest_ofCount n) one_pos one_pos (Nat.mul_le_mul_right 1 h)

theorem Below.add (h : Below x y) (k : Below z w) : Below (x + z) (y + w) := by
  have hlow := isNearest_add h.nonneg_left k.nonneg_left
  have hhigh := isNearest_add h.nonneg_right k.nonneg_right
  rw [h.left, Bool.false_and] at hlow
  rw [h.right, Bool.false_and] at hhigh
  exact hlow.below hhigh finest_pos finest_pos (Nat.mul_le_mul_right finest
    (Nat.add_le_add (units_mono h.magnitude_le) (units_mono k.magnitude_le)))

theorem nonneg_negativeZero : Nonneg (-0.0) := ⟨by decide, fun _ => by decide⟩

theorem isNearest_negativeZero_add (hx : Nonneg x) (hs : isNegative x = false) :
    IsNearest (-0.0 + x) false (units (magnitude x)) finest := by
  have hzero : magnitude (-0.0) = 0 := by decide
  have hadd := isNearest_add nonneg_negativeZero hx
  rwa [hs, Bool.and_false, hzero, units_zero, Nat.zero_add] at hadd

theorem Below.foldl_add (h : Below x y) {xs ys : List Float} (hs : List.Forall₂ Below xs ys) :
    Below (xs.foldl (· + ·) x) (ys.foldl (· + ·) y) := by
  induction hs generalizing x y with
  | nil => exact h
  | cons hfirst _ ih => exact ih (h.add hfirst)

theorem Below.sum (h : Below x y) {xs ys : List Float} (hs : List.Forall₂ Below xs ys) :
    Below (sum (x :: xs)) (sum (y :: ys)) := by
  have hfirst : Below (-0.0 + x) (-0.0 + y) :=
    (isNearest_negativeZero_add h.nonneg_left h.left).below
      (isNearest_negativeZero_add h.nonneg_right h.right) finest_pos finest_pos
      (Nat.mul_le_mul_right finest (units_mono h.magnitude_le))
  exact hfirst.foldl_add hs

theorem larger_eq (hx : Nonneg x) (hy : Nonneg y) (hsx : isNegative x = false)
    (hsy : isNegative y = false) :
    larger x y = if magnitude y < magnitude x then x else y := by
  have hnan : y.isNaN = false := isNaN_eq_false.mpr hy.number
  have hlt : y < x ↔ magnitude y < magnitude x := by
    rw [lt_iff]
    unfold weight
    simp [hsx, hsy, hx.number, hy.number]
  unfold larger
  simp only [hnan, Bool.false_or, decide_eq_true_eq, hlt]

theorem Below.larger (h : Below x y) (k : Below z w) : Below (larger x z) (larger y w) := by
  rw [larger_eq h.nonneg_left k.nonneg_left h.left k.left,
    larger_eq h.nonneg_right k.nonneg_right h.right k.right]
  have hxy := h.magnitude_le
  have hzw := k.magnitude_le
  split_ifs
  · exact h
  · exact ⟨h.left, k.right, by omega, k.number⟩
  · exact ⟨k.left, h.right, by omega, h.number⟩
  · exact k

theorem Below.foldl_larger (h : Below x y) {xs ys : List Float} (hs : List.Forall₂ Below xs ys) :
    Below (xs.foldl Binary64.larger x) (ys.foldl Binary64.larger y) := by
  induction hs generalizing x y with
  | nil => exact h
  | cons hfirst _ ih => exact ih (h.larger hfirst)

theorem larger_negativeInfinity (hx : magnitude x ≤ infiniteMagnitude) :
    larger (infinity true) x = x := by
  have hnan : x.isNaN = false := isNaN_eq_false.mpr hx
  have hlt : ¬x < infinity true := by
    have hinfinity : weight (infinity true) = -infiniteMagnitude := by decide
    have hweight : -(infiniteMagnitude : Int) ≤ weight x := by
      unfold weight
      split_ifs <;> omega
    exact fun h => absurd (lt_iff.mp h).2.2 (by omega)
  unfold larger
  rw [hnan, Bool.false_or, if_neg (by rwa [decide_eq_true_eq])]

theorem larger_cases (x y : Float) : larger x y = x ∨ larger x y = y := by
  unfold larger
  split_ifs
  · exact Or.inl rfl
  · exact Or.inr rfl

theorem foldl_larger_lt {xs : List Float} (hx : magnitude x < infiniteMagnitude)
    (h : ∀ y ∈ xs, magnitude y < infiniteMagnitude) :
    magnitude (xs.foldl larger x) < infiniteMagnitude := by
  induction xs generalizing x with
  | nil => exact hx
  | cons y xs ih =>
    refine ih ?_ fun z hz => h z (List.mem_cons_of_mem y hz)
    rcases larger_cases x y with he | he <;> rw [he]
    · exact hx
    · exact h y List.mem_cons_self

theorem units_pos {m : Nat} (h : 0 < m) : 0 < units m :=
  Nat.mul_pos (significand_pos h) (Nat.two_pow_pos _)

theorem infinite_div (hs : isNegative x = false) (hx : magnitude x = infiniteMagnitude)
    (hz : Finite z) (hpos : 0 < magnitude z) :
    isNegative (x / z) = false ∧ magnitude (x / z) = infiniteMagnitude := by
  have hdiv : x / z =
      packed (UnpackedFloat.div Format.binary64 x.toModel.unpack z.toModel.unpack) := rfl
  have hnonneg : Nonneg x := ⟨hx.le, fun h => by rw [hs] at h; cases h⟩
  rcases hz.unpack with ⟨hzero, -⟩ | ⟨pz, uz⟩
  · exact absurd hzero hpos.ne'
  · rcases hnonneg.unpack with ⟨hzero, -⟩ | ⟨-, hlt, -⟩ | ⟨-, -, ux⟩
    · rw [hzero] at hx
      exact absurd hx (by decide)
    · exact absurd hx hlt.ne
    · rw [hdiv, ux, uz]
      exact packed_infinity .positive

theorem Below.div (h : Below x y) (hz : Finite z) (hpos : 0 < magnitude z) :
    Below (x / z) (y / z) := by
  have hunits : 0 < units (magnitude z) := units_pos hpos
  rcases h.number.lt_or_eq with hlt | hinf
  · have hle := Nat.mul_le_mul_right (units (magnitude z)) (units_mono h.magnitude_le)
    exact (isNearest_div ⟨h.left, h.magnitude_le.trans_lt hlt⟩ hz hpos).below
      (isNearest_div ⟨h.right, hlt⟩ hz hpos) hunits hunits hle
  · obtain ⟨hsign, hmagnitude⟩ := infinite_div h.right hinf hz hpos
    rcases h.nonneg_left.number.lt_or_eq with hlt | hinf'
    · have hnearest := isNearest_div ⟨h.left, hlt⟩ hz hpos
      refine ⟨hnearest.sign, hsign, ?_, hmagnitude.le⟩
      rw [hnearest.magnitude, hmagnitude]
      exact min_le_right _ _
    · obtain ⟨hsign', hmagnitude'⟩ := infinite_div h.left hinf' hz hpos
      exact ⟨hsign', hsign, (hmagnitude'.trans hmagnitude.symm).le, hmagnitude.le⟩

end

/-! ## Exact counts -/

/-- The double of a natural number that needs no rounding. -/
structure Counts (x : Float) (n : Nat) : Prop where
  sign : isNegative x = false
  magnitude : magnitude x = nearestMagnitude n 1
  lt : n < 2 ^ 53

theorem eq_of_magnitude {x y : Float} (hs : isNegative x = isNegative y)
    (hm : magnitude x = magnitude y) : x = y := by
  have hbits : x.toModel.toBits = y.toModel.toBits := by
    have hx := toBits_lt x
    have hy := toBits_lt y
    have hsign : 2 ^ 63 ≤ x.toBits.toNat ↔ 2 ^ 63 ≤ y.toBits.toNat := decide_eq_decide.mp hs
    have hmod : x.toBits.toNat % 2 ^ 63 = y.toBits.toNat % 2 ^ 63 := hm
    exact UInt64.toNat_inj.mp (show x.toBits.toNat = y.toBits.toNat by omega)
  obtain ⟨⟨bits, valid⟩⟩ := x
  obtain ⟨⟨others, valid'⟩⟩ := y
  obtain rfl : bits = others := hbits
  rfl

section
variable {x y : Float} {m n : Nat}

theorem Counts.unique (hx : Counts x n) (hy : Counts y n) : x = y :=
  eq_of_magnitude (hx.sign.trans hy.sign.symm) (hx.magnitude.trans hy.magnitude.symm)

theorem IsNearest.counts (h : IsNearest x false n 1) (hn : n < 2 ^ 53) : Counts x n := by
  have hlt := nearestMagnitude_lt_infinite (n := n) (by omega)
  exact ⟨h.sign, by rw [h.magnitude, min_eq_left hlt.le], hn⟩

theorem Counts.finite (h : Counts x n) : Finite x := by
  have hn := h.lt
  exact ⟨h.sign, by rw [h.magnitude]; exact nearestMagnitude_lt_infinite (by omega)⟩

theorem Counts.units (h : Counts x n) : units (Binary64.magnitude x) = n * finest := by
  rw [h.magnitude, units_nearestMagnitude h.lt]

/-- The conversion to an integer drops the fraction and stops at the greatest word. -/
theorem Finite.toNat_toUInt64 (h : Finite x) :
    x.toUInt64.toNat = min (units (Binary64.magnitude x) / finest) (2 ^ 64 - 1) := by
  suffices hint : x.toModel.unpack.toInt 0 (UInt64.size - 1) =
      (units (Binary64.magnitude x) / finest : Nat) by
    show (UInt64.ofNatClamp (x.toModel.unpack.toInt 0 (UInt64.size - 1)).toNat).toNat = _
    rw [hint, Int.toNat_natCast]
    rcases Nat.lt_or_ge (units (Binary64.magnitude x) / finest) (2 ^ 64) with hlt | hge
    · rw [UInt64.ofNatClamp_eq_ofNat _ hlt, min_eq_left (Nat.le_sub_one_of_lt hlt)]
      exact UInt64.toNat_ofNat_of_lt hlt
    · rw [UInt64.ofNatClamp, dif_neg (not_lt.mpr hge), min_eq_right (by omega)]
      rfl
  rcases h.unpack with ⟨hzero, hu⟩ | ⟨hpos, hu⟩
  · rw [hzero, units_zero, Nat.zero_div, hu]
    rfl
  · obtain ⟨p, hp⟩ : ∃ p, Binary64.magnitude x / 2 ^ 52 - 1 = p := ⟨_, rfl⟩
    obtain ⟨t, ht⟩ : ∃ t, ((p : Int) - depth - 0).toNat = t := ⟨_, rfl⟩
    obtain ⟨s, hs⟩ : ∃ s, (0 - ((p : Int) - depth - t)).toNat = s := ⟨_, rfl⟩
    have hshifted := (standsFor_exact (significand (Binary64.magnitude x) <<< t)).shiftRight
      one_pos s
    have hscaled : significand (Binary64.magnitude x) * 2 ^ t / 2 ^ s =
        units (Binary64.magnitude x) / finest := by
      have hexponents : s + p = depth + t := by omega
      calc significand (Binary64.magnitude x) * 2 ^ t / 2 ^ s
          = significand (Binary64.magnitude x) * 2 ^ t * 2 ^ p / (2 ^ s * 2 ^ p) :=
            (Nat.mul_div_mul_right _ _ (Nat.two_pow_pos p)).symm
        _ = significand (Binary64.magnitude x) * 2 ^ p * 2 ^ t / (2 ^ depth * 2 ^ t) := by
          rw [Nat.mul_right_comm, ← pow_add, ← pow_add, hexponents]
        _ = units (Binary64.magnitude x) / finest := by
          rw [Nat.mul_div_mul_right _ _ (Nat.two_pow_pos t), Binary64.units, hp, finest]
    have hround : UnpackedFloat.roundToInt .positive (significand (Binary64.magnitude x))
        ((p : Int) - depth) = (ExtendedMantissa.ofMantissaAndAccuracy
          (significand (Binary64.magnitude x) <<< t) .exact >>> s).mantissa := by
      rw [← hs, ← ht]
      rfl
    rw [hp] at hu
    rw [hu]
    show UnpackedFloat.roundToInt .positive _ _ = _
    rw [hround, hshifted.mantissa, Nat.shiftLeft_eq, one_mul, hscaled]

theorem Counts.toNat_toUInt64 (h : Counts x n) : x.toUInt64.toNat = n := by
  have hlt := h.lt
  rw [h.finite.toNat_toUInt64, h.units, Nat.mul_div_cancel _ finest_pos]
  omega

theorem counts_ofCount (h : n < 2 ^ 53) : Counts (ofCount n) n := (isNearest_ofCount n).counts h

theorem isNearest_counts {a b : Nat} (h : IsNearest x false a b) (hb : 0 < b)
    (hab : a = n * b) : IsNearest x false n 1 := by
  refine ⟨h.sign, h.magnitude.trans ?_⟩
  rw [nearestMagnitude_congr hb one_pos (by rw [hab, mul_one])]

theorem Counts.add (hx : Counts x m) (hy : Counts y n) (h : m + n < 2 ^ 53) :
    Counts (x + y) (m + n) := by
  have hadd := isNearest_add hx.finite.nonneg hy.finite.nonneg
  rw [hx.sign, Bool.false_and, hx.units, hy.units] at hadd
  exact (isNearest_counts hadd finest_pos (by ring)).counts h

theorem Counts.mul (hx : Counts x m) (hy : Counts y n) (h : m * n < 2 ^ 53) :
    Counts (x * y) (m * n) := by
  have hmul := isNearest_mul hx.finite hy.finite
  rw [hx.units, hy.units] at hmul
  exact (isNearest_counts hmul (Nat.mul_pos finest_pos finest_pos) (by ring)).counts h

theorem Counts.negativeZero_add (hx : Counts x n) : Counts (-0.0 + x) n := by
  have hadd := isNearest_negativeZero_add hx.finite.nonneg hx.sign
  rw [hx.units] at hadd
  exact (isNearest_counts hadd finest_pos rfl).counts hx.lt

theorem Counts.foldl_add (hx : Counts x n) {xs : List Float} {ns : List Nat}
    (hs : List.Forall₂ Counts xs ns) (h : n + ns.sum < 2 ^ 53) :
    Counts (xs.foldl (· + ·) x) (n + ns.sum) := by
  induction hs generalizing x n with
  | nil => simpa using hx
  | cons hfirst _ ih =>
    rw [List.sum_cons, ← Nat.add_assoc] at h ⊢
    exact ih (hx.add hfirst (by omega)) h

/-- Natural numbers are added without rounding as long as their sum is small. -/
theorem Counts.sum (hx : Counts x n) {xs : List Float} {ns : List Nat}
    (hs : List.Forall₂ Counts xs ns) (h : (n :: ns).sum < 2 ^ 53) :
    Counts (sum (x :: xs)) (n :: ns).sum := by
  rw [List.sum_cons] at h ⊢
  exact hx.negativeZero_add.foldl_add hs h

/-- A double that is a natural number, where zero may have either sign. -/
structure Equals (x : Float) (n : Nat) : Prop where
  number : magnitude x ≤ infiniteMagnitude
  weight : weight x = nearestMagnitude n 1
  lt : n < 2 ^ 53

theorem Counts.equals (h : Counts x n) : Equals x n := by
  refine ⟨h.finite.finite.le, ?_, h.lt⟩
  rw [Binary64.weight, h.sign, h.magnitude]
  rfl

theorem equals_negativeZero : Equals (-0.0 + -0.0) 0 := by
  refine ⟨by decide, ?_, by decide⟩
  rw [nearestMagnitude_zero]
  decide

theorem Equals.le (hx : Equals x m) (hy : Equals y n) (h : m ≤ n) : x ≤ y := by
  refine le_iff.mpr ⟨hx.number, hy.number, ?_⟩
  rw [hx.weight, hy.weight]
  exact_mod_cast nearestMagnitude_mono one_pos one_pos (Nat.mul_le_mul_right 1 h)

end

end Recoding.Binary64
