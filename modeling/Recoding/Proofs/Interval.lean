import Recoding.Interval
import Recoding.Proofs.Binary64.Rounding
import Recoding.Proofs.Outcome

/-!
# Enclosures

Intervals are read as sets of rationals. Whatever an operation on intervals returns contains the
exact results on all that its operands contain, whatever the signs of the ends are.
-/

namespace Recoding

open Binary64

namespace Interval

/-- The rationals between the ends of an interval. -/
structure Encloses (i : Interval) (q : ℚ) : Prop where
  lower : ∃ low, toRat? i.lower = some low ∧ low ≤ q
  upper : ∃ high, toRat? i.upper = some high ∧ q ≤ high

/-- Both ends of an interval are finite, and they are in order. -/
structure Proper (i : Interval) : Prop where
  lower : i.lower.isFinite
  upper : i.upper.isFinite
  ordered : i.lower ≤ i.upper

section
variable {i : Interval} {q : ℚ}

theorem Proper.lower_finite (h : i.Proper) : magnitude i.lower < infiniteMagnitude :=
  isFinite_iff.mp h.lower

theorem Proper.upper_finite (h : i.Proper) : magnitude i.upper < infiniteMagnitude :=
  isFinite_iff.mp h.upper

theorem encloses_of_exact (hlower : magnitude i.lower < infiniteMagnitude)
    (hupper : magnitude i.upper < infiniteMagnitude) :
    i.Encloses q ↔ exact i.lower ≤ q ∧ q ≤ exact i.upper := by
  constructor
  · rintro ⟨⟨low, hlow, hle⟩, high, hhigh, hge⟩
    rw [toRat?_exact hlower] at hlow
    rw [toRat?_exact hupper] at hhigh
    cases hlow
    cases hhigh
    exact ⟨hle, hge⟩
  · rintro ⟨hle, hge⟩
    exact ⟨⟨_, toRat?_exact hlower, hle⟩, _, toRat?_exact hupper, hge⟩

theorem Proper.encloses (h : i.Proper) :
    i.Encloses q ↔ exact i.lower ≤ q ∧ q ≤ exact i.upper :=
  encloses_of_exact h.lower_finite h.upper_finite

theorem proper_of_exact (hlower : magnitude i.lower < infiniteMagnitude)
    (hupper : magnitude i.upper < infiniteMagnitude) (hle : exact i.lower ≤ q)
    (hge : q ≤ exact i.upper) : i.Proper ∧ i.Encloses q :=
  ⟨⟨isFinite_iff.mpr hlower, isFinite_iff.mpr hupper, (le_iff_exact hlower hupper).mpr
    (hle.trans hge)⟩, (encloses_of_exact hlower hupper).mpr ⟨hle, hge⟩⟩

theorem Proper.contains_iff (h : i.Proper) {x : Float} (hx : magnitude x < infiniteMagnitude) :
    i.contains x = true ↔ i.Encloses (exact x) := by
  rw [h.encloses, contains, Bool.and_eq_true, decide_eq_true_eq, decide_eq_true_eq,
    le_iff_exact h.lower_finite hx, le_iff_exact hx h.upper_finite]

theorem Proper.contains_zero (h : i.Proper) : i.contains 0.0 = true ↔ i.Encloses 0 := by
  have hzero : magnitude 0.0 = 0 := by decide
  rw [h.contains_iff (hzero.trans_lt (by decide)), exact_of_zero hzero]

end

/-! ## Ends -/

theorem checkEnd_ok {x : Float} : checkEnd x = .ok () ↔ magnitude x < infiniteMagnitude := by
  unfold checkEnd
  split_ifs with hnan hinf
  · rw [isNaN_iff] at hnan
    exact ⟨(fun h => nomatch h), fun h => absurd h (not_lt.mpr hnan.le)⟩
  · rw [isInf_iff] at hinf
    exact ⟨(fun h => nomatch h), fun h => absurd hinf h.ne⟩
  · rw [isNaN_iff, not_lt] at hnan
    rw [isInf_iff] at hinf
    exact ⟨fun _ => lt_of_le_of_ne hnan hinf, fun _ => rfl⟩

theorem bounded_ok {lower upper : Float} {i : Interval} : bounded lower upper = .ok i ↔
    i = ⟨lower, upper⟩ ∧ magnitude lower < infiniteMagnitude ∧
      magnitude upper < infiniteMagnitude := by
  constructor
  · intro h
    obtain ⟨_, hlower, h⟩ := bind_eq_ok.mp h
    obtain ⟨_, hupper, h⟩ := bind_eq_ok.mp h
    exact ⟨(Except.ok.inj h).symm, checkEnd_ok.mp hlower, checkEnd_ok.mp hupper⟩
  · rintro ⟨rfl, hlower, hupper⟩
    exact bind_eq_ok.mpr ⟨(), checkEnd_ok.mpr hlower,
      bind_eq_ok.mpr ⟨(), checkEnd_ok.mpr hupper, rfl⟩⟩

theorem point_ok {x : Float} {i : Interval} :
    point x = .ok i ↔ i = ⟨x, x⟩ ∧ magnitude x < infiniteMagnitude := by
  constructor
  · intro h
    obtain ⟨_, hx, h⟩ := bind_eq_ok.mp h
    exact ⟨(Except.ok.inj h).symm, checkEnd_ok.mp hx⟩
  · rintro ⟨rfl, hx⟩
    exact bind_eq_ok.mpr ⟨(), checkEnd_ok.mpr hx, rfl⟩

theorem forM_checkEnd {ends : List Float} (h : ends.forM checkEnd = .ok ()) :
    ∀ x ∈ ends, magnitude x < infiniteMagnitude := by
  induction ends with
  | nil => simp
  | cons x ends ih =>
    have h : (checkEnd x >>= fun _ => ends.forM checkEnd) = .ok () := h
    obtain ⟨_, hx, h⟩ := bind_eq_ok.mp h
    intro y hy
    rcases List.mem_cons.mp hy with rfl | hy
    · exact checkEnd_ok.mp hx
    · exact ih h y hy

/-- Steps outwards from rounded ends enclose what lies between the exact ends. -/
theorem bounded_encloses {low high : Float} {i : Interval}
    (h : bounded (nextDown low) (nextUp high) = .ok i) (hlow : magnitude low ≤ infiniteMagnitude)
    (hhigh : magnitude high ≤ infiniteMagnitude) {x y : Float} {u v q : ℚ} (hx : Near x u)
    (hy : Near y v) (hxlow : weight low ≤ weight x) (hyhigh : weight y ≤ weight high)
    (hu : u ≤ q) (hv : q ≤ v) : i.Proper ∧ i.Encloses q := by
  obtain ⟨rfl, hlower, hupper⟩ := bounded_ok.mp h
  exact proper_of_exact hlower hupper ((hx.nextDown_le hlow hxlow hlower).trans hu)
    (hv.trans (hy.le_nextUp hhigh hyhigh hupper))

/-! ## Hulls -/

section
variable {x y : Float}

theorem smaller_number (hx : magnitude x ≤ infiniteMagnitude)
    (hy : magnitude y ≤ infiniteMagnitude) :
    magnitude (smaller x y) ≤ infiniteMagnitude ∧
      weight (smaller x y) = min (weight x) (weight y) := by
  unfold smaller
  rw [isNaN_eq_false.mpr hy, Bool.false_or]
  simp only [decide_eq_true_eq, lt_iff, hx, hy, true_and]
  split_ifs with hlt
  · exact ⟨hx, (min_eq_left hlt.le).symm⟩
  · exact ⟨hy, (min_eq_right (not_lt.mp hlt)).symm⟩

theorem larger_number (hx : magnitude x ≤ infiniteMagnitude)
    (hy : magnitude y ≤ infiniteMagnitude) :
    magnitude (larger x y) ≤ infiniteMagnitude ∧
      weight (larger x y) = max (weight x) (weight y) := by
  unfold larger
  rw [isNaN_eq_false.mpr hy, Bool.false_or]
  simp only [decide_eq_true_eq, lt_iff, hx, hy, true_and]
  split_ifs with hlt
  · exact ⟨hx, (max_eq_left hlt.le).symm⟩
  · exact ⟨hy, (max_eq_right (not_lt.mp hlt)).symm⟩

/-- A bound on the end that a fold picks is a bound on all ends, if this holds of one pick. -/
theorem foldl_pick {pick : Float → Float → Float} {p : Int → Prop}
    (hpick : ∀ {x y : Float}, magnitude x ≤ infiniteMagnitude → magnitude y ≤ infiniteMagnitude →
      magnitude (pick x y) ≤ infiniteMagnitude ∧
        (p (weight (pick x y)) ↔ p (weight x) ∧ p (weight y)))
    {ends : List Float} (hx : magnitude x ≤ infiniteMagnitude)
    (h : ∀ y ∈ ends, magnitude y ≤ infiniteMagnitude) :
    magnitude (ends.foldl pick x) ≤ infiniteMagnitude ∧
      (p (weight (ends.foldl pick x)) ↔ p (weight x) ∧ ∀ y ∈ ends, p (weight y)) := by
  induction ends generalizing x with
  | nil => exact ⟨hx, by simp⟩
  | cons y ends ih =>
    rw [List.forall_mem_cons] at h
    obtain ⟨hnumber, hone⟩ := hpick hx h.1
    obtain ⟨hfold, hall⟩ := ih hnumber h.2
    rw [hone, and_assoc, ← List.forall_mem_cons (p := fun y => p (weight y))] at hall
    exact ⟨hfold, hall⟩

theorem foldl_smaller (w : Int) {ends : List Float} (hx : magnitude x ≤ infiniteMagnitude)
    (h : ∀ y ∈ ends, magnitude y ≤ infiniteMagnitude) :
    magnitude (ends.foldl smaller x) ≤ infiniteMagnitude ∧
      (w ≤ weight (ends.foldl smaller x) ↔ w ≤ weight x ∧ ∀ y ∈ ends, w ≤ weight y) := by
  refine foldl_pick (p := (w ≤ ·)) (fun hx hy => ?_) hx h
  obtain ⟨hnumber, hweight⟩ := smaller_number hx hy
  exact ⟨hnumber, by rw [hweight, le_min_iff]⟩

theorem foldl_larger (w : Int) {ends : List Float} (hx : magnitude x ≤ infiniteMagnitude)
    (h : ∀ y ∈ ends, magnitude y ≤ infiniteMagnitude) :
    magnitude (ends.foldl larger x) ≤ infiniteMagnitude ∧
      (weight (ends.foldl larger x) ≤ w ↔ weight x ≤ w ∧ ∀ y ∈ ends, weight y ≤ w) := by
  refine foldl_pick (p := (· ≤ w)) (fun hx hy => ?_) hx h
  obtain ⟨hnumber, hweight⟩ := larger_number hx hy
  exact ⟨hnumber, by rw [hweight, max_le_iff]⟩

/-- A hull of rounded values encloses what lies between two of the exact ones. -/
theorem hull_encloses {ends : List Float} {i : Interval} (h : hull ends = .ok i) (hx : x ∈ ends)
    (hy : y ∈ ends) {u v q : ℚ} (hnear : Near x u) (hnear' : Near y v) (hu : u ≤ q)
    (hv : q ≤ v) : i.Proper ∧ i.Encloses q := by
  obtain ⟨_, hchecked, h⟩ := bind_eq_ok.mp h
  have hnumber : ∀ z ∈ ends, magnitude z ≤ infiniteMagnitude :=
    fun z hz => (forM_checkEnd hchecked z hz).le
  obtain ⟨hlow, hleast⟩ := foldl_smaller _ (number_ofMagnitude false le_rfl).2.le hnumber
  obtain ⟨hhigh, hgreatest⟩ := foldl_larger _ (number_ofMagnitude true le_rfl).2.le hnumber
  exact bounded_encloses h hlow hhigh hnear hnear' ((hleast.mp le_rfl).2 x hx)
    ((hgreatest.mp le_rfl).2 y hy) hu hv

end

/-! ## Corners -/

def ends (i : Interval) : List Float := [i.lower, i.upper]

/-- The results of an operation on the ends of two intervals. -/
def corners (f : Float → Float → Float) (a b : Interval) : List Float :=
  a.ends.flatMap fun x => b.ends.map (f x)

section
variable {a b i : Interval} {p q : ℚ} {x : Float}

theorem mem_ends : x ∈ i.ends ↔ x = i.lower ∨ x = i.upper := by
  simp [ends]

theorem Proper.encloses_end (h : i.Proper) (hx : x ∈ i.ends) :
    magnitude x < infiniteMagnitude ∧ i.Encloses (exact x) := by
  have hle := (le_iff_exact h.lower_finite h.upper_finite).mp h.ordered
  rw [h.encloses]
  rcases mem_ends.mp hx with rfl | rfl
  · exact ⟨h.lower_finite, le_rfl, hle⟩
  · exact ⟨h.upper_finite, hle, le_rfl⟩

/-- A product is linear in a factor, so it is least with some end of the interval. -/
theorem Proper.exists_mul_le (h : i.Proper) (hp : i.Encloses p) (k : ℚ) :
    ∃ x ∈ i.ends, k * exact x ≤ k * p := by
  obtain ⟨hlow, hhigh⟩ := h.encloses.mp hp
  rcases le_total 0 k with hpos | hneg
  · exact ⟨i.lower, mem_ends.mpr (.inl rfl), mul_le_mul_of_nonneg_left hlow hpos⟩
  · exact ⟨i.upper, mem_ends.mpr (.inr rfl), mul_le_mul_of_nonpos_left hhigh hneg⟩

theorem Proper.exists_le_mul (h : i.Proper) (hp : i.Encloses p) (k : ℚ) :
    ∃ x ∈ i.ends, k * p ≤ k * exact x := by
  obtain ⟨x, hx, hle⟩ := h.exists_mul_le hp (-k)
  rw [neg_mul, neg_mul, neg_le_neg_iff] at hle
  exact ⟨x, hx, hle⟩

/-- Away from zero the inverses are in the opposite order. -/
theorem Proper.inv_between (h : i.Proper) (hq : i.Encloses q) (hzero : ¬i.Encloses 0) :
    (exact i.upper)⁻¹ ≤ q⁻¹ ∧ q⁻¹ ≤ (exact i.lower)⁻¹ := by
  obtain ⟨hlow, hhigh⟩ := h.encloses.mp hq
  rw [h.encloses, not_and_or, not_le, not_le] at hzero
  rcases hzero with hpos | hneg
  · exact ⟨inv_anti₀ (hpos.trans_le hlow) hhigh, inv_anti₀ hpos hlow⟩
  · have hq := hhigh.trans_lt hneg
    exact ⟨(inv_le_inv_of_neg hneg hq).mpr hhigh,
      (inv_le_inv_of_neg hq (hlow.trans_lt hq)).mpr hlow⟩

theorem Proper.exists_div_le (h : i.Proper) (hq : i.Encloses q) (hzero : ¬i.Encloses 0) (k : ℚ) :
    ∃ x ∈ i.ends, k / exact x ≤ k / q := by
  obtain ⟨hlow, hhigh⟩ := h.inv_between hq hzero
  simp only [div_eq_mul_inv]
  rcases le_total 0 k with hpos | hneg
  · exact ⟨i.upper, mem_ends.mpr (.inr rfl), mul_le_mul_of_nonneg_left hlow hpos⟩
  · exact ⟨i.lower, mem_ends.mpr (.inl rfl), mul_le_mul_of_nonpos_left hhigh hneg⟩

theorem Proper.exists_le_div (h : i.Proper) (hq : i.Encloses q) (hzero : ¬i.Encloses 0) (k : ℚ) :
    ∃ x ∈ i.ends, k / q ≤ k / exact x := by
  obtain ⟨x, hx, hle⟩ := h.exists_div_le hq hzero (-k)
  rw [neg_div, neg_div, neg_le_neg_iff] at hle
  exact ⟨x, hx, hle⟩

/-- A hull of corners encloses what lies between two of the exact results. -/
theorem corners_encloses {f : Float → Float → Float} {g : ℚ → ℚ → ℚ}
    (h : hull (corners f a b) = .ok i)
    (hnear : ∀ x ∈ a.ends, ∀ y ∈ b.ends, Near (f x y) (g (exact x) (exact y)))
    (hlow : ∃ x ∈ a.ends, ∃ y ∈ b.ends, g (exact x) (exact y) ≤ q)
    (hhigh : ∃ x ∈ a.ends, ∃ y ∈ b.ends, q ≤ g (exact x) (exact y)) :
    i.Proper ∧ i.Encloses q := by
  obtain ⟨x, hx, y, hy, hle⟩ := hlow
  obtain ⟨x', hx', y', hy', hge⟩ := hhigh
  have hmem : ∀ z ∈ a.ends, ∀ w ∈ b.ends, f z w ∈ corners f a b := fun z hz w hw =>
    List.mem_flatMap.mpr ⟨z, hz, List.mem_map_of_mem hw⟩
  exact hull_encloses h (hmem x hx y hy) (hmem x' hx' y' hy') (hnear x hx y hy)
    (hnear x' hx' y' hy') hle hge

/-! ## Operations -/

theorem add_encloses (ha : a.Proper) (hb : b.Proper) (h : add a b = .ok i) (hp : a.Encloses p)
    (hq : b.Encloses q) : i.Proper ∧ i.Encloses (p + q) := by
  obtain ⟨hplow, hphigh⟩ := ha.encloses.mp hp
  obtain ⟨hqlow, hqhigh⟩ := hb.encloses.mp hq
  have hlow := (rounds_add ha.lower_finite hb.lower_finite).near
  have hhigh := (rounds_add ha.upper_finite hb.upper_finite).near
  exact bounded_encloses h hlow.number hhigh.number hlow hhigh le_rfl le_rfl
    (add_le_add hplow hqlow) (add_le_add hphigh hqhigh)

theorem sub_encloses (ha : a.Proper) (hb : b.Proper) (h : sub a b = .ok i) (hp : a.Encloses p)
    (hq : b.Encloses q) : i.Proper ∧ i.Encloses (p - q) := by
  obtain ⟨hplow, hphigh⟩ := ha.encloses.mp hp
  obtain ⟨hqlow, hqhigh⟩ := hb.encloses.mp hq
  have hlow := (rounds_sub ha.lower_finite hb.upper_finite).near
  have hhigh := (rounds_sub ha.upper_finite hb.lower_finite).near
  exact bounded_encloses h hlow.number hhigh.number hlow hhigh le_rfl le_rfl
    (sub_le_sub hplow hqhigh) (sub_le_sub hphigh hqlow)

theorem mul_encloses (ha : a.Proper) (hb : b.Proper) (h : mul a b = .ok i) (hp : a.Encloses p)
    (hq : b.Encloses q) : i.Proper ∧ i.Encloses (p * q) := by
  have hull : hull (corners (· * ·) a b) = .ok i := h
  refine corners_encloses (g := (· * ·)) hull (fun x hx y hy =>
    (rounds_mul (ha.encloses_end hx).1 (hb.encloses_end hy).1).near) ?_ ?_
  · obtain ⟨x, hx, hxle⟩ := ha.exists_mul_le hp q
    obtain ⟨y, hy, hyle⟩ := hb.exists_mul_le hq (exact x)
    refine ⟨x, hx, y, hy, hyle.trans ?_⟩
    rwa [mul_comm (exact x), mul_comm p]
  · obtain ⟨x, hx, hxle⟩ := ha.exists_le_mul hp q
    obtain ⟨y, hy, hyle⟩ := hb.exists_le_mul hq (exact x)
    refine ⟨x, hx, y, hy, le_trans ?_ hyle⟩
    rwa [mul_comm p, mul_comm (exact x)]

theorem div_zero (hb : b.Proper) (hzero : b.Encloses 0) :
    div a b = .error (.divisorContainsZero b.lower b.upper) := by
  unfold div
  rw [if_pos (hb.contains_zero.mpr hzero)]

theorem div_ok (hb : b.Proper) (h : div a b = .ok i) :
    ¬b.Encloses 0 ∧ hull (corners (· / ·) a b) = .ok i := by
  have hzero : ¬b.Encloses 0 := by
    intro hzero
    rw [div_zero hb hzero] at h
    cases h
  unfold div at h
  rw [if_neg (mt hb.contains_zero.mp hzero)] at h
  exact ⟨hzero, h⟩

theorem div_encloses (ha : a.Proper) (hb : b.Proper) (h : div a b = .ok i) (hp : a.Encloses p)
    (hq : b.Encloses q) : i.Proper ∧ i.Encloses (p / q) := by
  obtain ⟨hzero, hull⟩ := div_ok hb h
  refine corners_encloses (g := (· / ·)) hull (fun x hx y hy => ?_) ?_ ?_
  · obtain ⟨hfinite, hend⟩ := hb.encloses_end hy
    have hnonzero : exact y ≠ 0 := fun hnone => hzero (hnone ▸ hend)
    exact (rounds_div (ha.encloses_end hx).1 hfinite (magnitude_pos hnonzero)).near
  · obtain ⟨x, hx, hxle⟩ := ha.exists_mul_le hp q⁻¹
    obtain ⟨y, hy, hyle⟩ := hb.exists_div_le hq hzero (exact x)
    refine ⟨x, hx, y, hy, hyle.trans ?_⟩
    rwa [div_eq_inv_mul, div_eq_inv_mul]
  · obtain ⟨x, hx, hxle⟩ := ha.exists_le_mul hp q⁻¹
    obtain ⟨y, hy, hyle⟩ := hb.exists_le_div hq hzero (exact x)
    refine ⟨x, hx, y, hy, le_trans ?_ hyle⟩
    rwa [div_eq_inv_mul, div_eq_inv_mul]

end

/-! ## Numbers -/

section
variable {n : Nat} {i : Interval}

theorem exact_ofCount (h : n < 2 ^ 53) : exact (ofCount n) = n := by
  have hcounts := counts_ofCount h
  rw [exact_eq, hcounts.sign, hcounts.units]
  push_cast
  exact mul_div_cancel_right₀ _ finest_cast_pos.ne'

theorem rounds_ofCount (n : Nat) : Rounds (ofCount n) n := by
  have hrounds := (isNearest_ofCount n).rounds one_pos
  rwa [Nat.cast_one, div_one] at hrounds

/-- Rounding keeps the numbers below `2 ^ 53` apart from the others. -/
theorem ofCount_lt_iff : ofCount n < 9007199254740992.0 ↔ n < 2 ^ 53 := by
  have hnumber : magnitude 9007199254740992.0 ≤ infiniteMagnitude := by decide
  have hbound : weight 9007199254740992.0 = nearestMagnitude (2 ^ 53) 1 := by decide
  have hnearest := isNearest_ofCount n
  have hfinite : magnitude (ofCount n) ≤ infiniteMagnitude :=
    hnearest.magnitude.trans_le (min_le_right _ _)
  have hweight : weight (ofCount n) = min (nearestMagnitude n 1) infiniteMagnitude := by
    rw [weight, hnearest.sign, hnearest.magnitude]
    simp
  rw [lt_iff, hbound, hweight]
  constructor
  · rintro ⟨-, -, hlt⟩
    by_contra hle
    have hmono := nearestMagnitude_mono one_pos one_pos (Nat.mul_le_mul_right 1 (not_lt.mp hle))
    have hinf : nearestMagnitude (2 ^ 53) 1 ≤ infiniteMagnitude := by decide
    omega
  · intro hlt
    have hmono := nearestMagnitude_mono (a := n) (c := 2 ^ 53 - 1) one_pos one_pos (by omega)
    have hstep : nearestMagnitude (2 ^ 53 - 1) 1 < nearestMagnitude (2 ^ 53) 1 := by
      decide
    exact ⟨hfinite, hnumber, by omega⟩

/-- What the conversion back and the comparison of doubles test is being below `2 ^ 53`. -/
theorem ofNat_eq (n : Nat) : ofNat n =
    if n < 2 ^ 53 then point (ofCount n) else around (ofCount n) := by
  unfold ofNat
  refine if_congr ?_ rfl rfl
  rw [ofCount_lt_iff]
  exact ⟨And.right, fun h => ⟨(counts_ofCount h).toNat_toUInt64, h⟩⟩

theorem ofNat_encloses (h : ofNat n = .ok i) : i.Proper ∧ i.Encloses n := by
  rw [ofNat_eq] at h
  split_ifs at h with hsmall
  · obtain ⟨rfl, hfinite⟩ := point_ok.mp h
    have hexact := exact_ofCount hsmall
    exact proper_of_exact hfinite hfinite hexact.le hexact.ge
  · obtain ⟨_, -, h⟩ := bind_eq_ok.mp h
    have hnear := (rounds_ofCount n).near
    exact bounded_encloses h hnear.number hnear.number hnear hnear le_rfl le_rfl le_rfl le_rfl

/-- Every number of 64 bits has an interval, of one double only if the number needs no rounding. -/
theorem exists_ofNat (h : n < 2 ^ 64) :
    ∃ i, ofNat n = .ok i ∧ (i.lower = i.upper ↔ n < 2 ^ 53) := by
  have hfinite := finite_ofCount h.le
  rw [ofNat_eq]
  split_ifs with hsmall
  · exact ⟨_, point_ok.mpr ⟨rfl, hfinite.finite⟩, by simp [hsmall]⟩
  · have hpos := ofCount_pos (n := n) (by omega)
    obtain ⟨hlower, hdown⟩ := nextDown_pos hfinite hpos
    obtain ⟨-, hup⟩ := nextUp_finite hfinite
    have hupper : magnitude (nextUp (ofCount n)) < infiniteMagnitude := by
      have hmono := nearestMagnitude_mono one_pos one_pos (Nat.mul_le_mul_right 1 h.le)
      have hlarge : nearestMagnitude (2 ^ 64) 1 + 1 < infiniteMagnitude := by decide
      have hnearest := (isNearest_ofCount n).magnitude
      omega
    refine ⟨_, bind_eq_ok.mpr ⟨(), checkEnd_ok.mpr hfinite.finite,
      bounded_ok.mpr ⟨rfl, hlower.finite, hupper⟩⟩, ?_⟩
    have hne : nextDown (ofCount n) ≠ nextUp (ofCount n) := fun heq => by
      have hmagnitude := congrArg magnitude heq
      omega
    simp [hne, hsmall]

end

/-! ## Soundness -/

/-- Whatever an operation on intervals returns has finite ends in order and contains the exact
results, a divisor that contains zero is refused, and every number of 64 bits is in its interval. -/
theorem operations_enclose :
    (∀ a b : Interval, a.Proper → b.Proper →
      (∀ p q : ℚ, a.Encloses p → b.Encloses q →
        (∀ c, add a b = .ok c → c.Proper ∧ c.Encloses (p + q)) ∧
        (∀ c, sub a b = .ok c → c.Proper ∧ c.Encloses (p - q)) ∧
        (∀ c, mul a b = .ok c → c.Proper ∧ c.Encloses (p * q)) ∧
        (∀ c, div a b = .ok c → q ≠ 0 ∧ c.Proper ∧ c.Encloses (p / q))) ∧
      (b.Encloses 0 → div a b = .error (.divisorContainsZero b.lower b.upper))) ∧
    ∀ n < 2 ^ 64, ∃ i, ofNat n = .ok i ∧ i.Proper ∧ i.Encloses n ∧
      (i.lower = i.upper ↔ n < 2 ^ 53) := by
  refine ⟨fun a b ha hb => ⟨fun p q hp hq => ⟨fun c h => add_encloses ha hb h hp hq,
    fun c h => sub_encloses ha hb h hp hq, fun c h => mul_encloses ha hb h hp hq,
    fun c h => ⟨?_, div_encloses ha hb h hp hq⟩⟩, div_zero hb⟩, fun n hn => ?_⟩
  · rintro rfl
    rw [div_zero hb hq] at h
    cases h
  · obtain ⟨i, hi, hdegenerate⟩ := exists_ofNat hn
    obtain ⟨hproper, hencloses⟩ := ofNat_encloses hi
    exact ⟨i, hi, hproper, hencloses, hdegenerate⟩

/-- An interval around zero and a negative one, and a number between two doubles. -/
theorem operations_enclose_mixed :
    let a : Interval := ⟨-1.5, 2.0⟩
    let b : Interval := ⟨-3.0, -0.5⟩
    (a.Proper ∧ b.Proper ∧ a.Encloses (1 / 3) ∧ b.Encloses (-2 / 3)) ∧
      (∃ c, add a b = .ok c ∧ c.Encloses (1 / 3 + -2 / 3)) ∧
      (∃ c, sub a b = .ok c ∧ c.Encloses (1 / 3 - -2 / 3)) ∧
      (∃ c, mul a b = .ok c ∧ c.Encloses (1 / 3 * (-2 / 3))) ∧
      (∃ c, div a b = .ok c ∧ c.Encloses (1 / 3 / (-2 / 3))) ∧
      div b a = .error (.divisorContainsZero (-1.5) 2.0) ∧
      ∃ i, ofNat (2 ^ 53 + 1) = .ok i ∧ i.Encloses ((2 ^ 53 + 1 : Nat) : ℚ) ∧
        i.lower ≠ i.upper := by
  have hvalues : toRat? (-1.5) = some (-3 / 2) ∧ toRat? 2.0 = some 2 ∧ toRat? (-3.0) = some (-3) ∧
      toRat? (-0.5) = some (-1 / 2) := by decide +kernel
  obtain ⟨hlowA, hhighA, hlowB, hhighB⟩ := hvalues
  have ha : Proper ⟨-1.5, 2.0⟩ := ⟨by decide, by decide, by decide⟩
  have hb : Proper ⟨-3.0, -0.5⟩ := ⟨by decide, by decide, by decide⟩
  have hp : Encloses ⟨-1.5, 2.0⟩ (1 / 3) :=
    ⟨⟨_, hlowA, by norm_num⟩, _, hhighA, by norm_num⟩
  have hq : Encloses ⟨-3.0, -0.5⟩ (-2 / 3) :=
    ⟨⟨_, hlowB, by norm_num⟩, _, hhighB, by norm_num⟩
  have hzero : Encloses ⟨-1.5, 2.0⟩ 0 :=
    ⟨⟨_, hlowA, by norm_num⟩, _, hhighA, by norm_num⟩
  obtain ⟨hoperations, hnumbers⟩ := operations_enclose
  obtain ⟨hadd, hsub, hmul, hdiv⟩ := (hoperations _ _ ha hb).1 _ _ hp hq
  have hok : ∀ {r : Except Failure Interval}, r.toOption.isSome = true → ∃ c, r = .ok c :=
    fun h => (Option.isSome_iff_exists.mp h).imp fun _ => eq_ok_of_toOption
  obtain ⟨sum, hsum⟩ : ∃ c, add ⟨-1.5, 2.0⟩ ⟨-3.0, -0.5⟩ = .ok c := hok (by decide)
  obtain ⟨difference, hdifference⟩ : ∃ c, sub ⟨-1.5, 2.0⟩ ⟨-3.0, -0.5⟩ = .ok c :=
    hok (by decide)
  obtain ⟨product, hproduct⟩ : ∃ c, mul ⟨-1.5, 2.0⟩ ⟨-3.0, -0.5⟩ = .ok c :=
    hok (by decide +kernel)
  obtain ⟨quotient, hquotient⟩ : ∃ c, div ⟨-1.5, 2.0⟩ ⟨-3.0, -0.5⟩ = .ok c :=
    hok (by decide +kernel)
  obtain ⟨i, hi, -, hencloses, hdegenerate⟩ := hnumbers (2 ^ 53 + 1) (by decide)
  exact ⟨⟨ha, hb, hp, hq⟩, ⟨sum, hsum, (hadd _ hsum).2⟩, ⟨difference, hdifference,
    (hsub _ hdifference).2⟩, ⟨product, hproduct, (hmul _ hproduct).2⟩, ⟨quotient, hquotient,
    (hdiv _ hquotient).2.2⟩, (hoperations _ _ hb ha).2 hzero, i, hi, hencloses,
    fun heq => absurd (hdegenerate.mp heq) (by decide)⟩

end Interval
end Recoding
