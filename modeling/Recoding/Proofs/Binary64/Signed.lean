import Recoding.Proofs.Binary64.Neighbor

/-!
# Signed doubles

A finite double is the rational that its weight stands for, and the steps to its neighbours are
steps of the weight, whatever the sign is.
-/

namespace Recoding.Binary64

open Float.Model Float.Model.UnpackedFloat

/-! ## Weights -/

def ofWeight (w : Int) : ℚ := w.sign * units w.natAbs / finest

def signed (s : Bool) (q : ℚ) : ℚ := if s then -q else q

theorem ofWeight_natCast (m : Nat) : ofWeight m = units m / finest := by
  rcases Nat.eq_zero_or_pos m with rfl | hpos
  · simp [ofWeight, units_zero]
  · simp [ofWeight, Int.sign_eq_one_of_pos (Int.natCast_pos.mpr hpos)]

theorem ofWeight_zero : ofWeight 0 = 0 := by
  simp [ofWeight]

theorem ofWeight_neg (w : Int) : ofWeight (-w) = -ofWeight w := by
  simp [ofWeight, neg_div]

theorem ofWeight_strictMono : StrictMono ofWeight := by
  have hnat : ∀ m n : Nat, m < n → ofWeight m < ofWeight n := by
    intro m n h
    rw [ofWeight_natCast, ofWeight_natCast]
    exact div_lt_div_of_pos_right (by exact_mod_cast units_strictMono h) finest_cast_pos
  have hneg : ∀ m n : Nat, m < n → ofWeight (-n) < ofWeight (-m) := by
    intro m n h
    rw [ofWeight_neg, ofWeight_neg]
    exact neg_lt_neg (hnat m n h)
  intro v w h
  -- zero lies between weights of different signs
  obtain ⟨m, rfl | rfl⟩ := Int.eq_nat_or_neg v <;> obtain ⟨n, rfl | rfl⟩ := Int.eq_nat_or_neg w
  · exact hnat m n (by omega)
  · omega
  · rcases Nat.eq_zero_or_pos m with rfl | hm
    · exact hnat 0 n (by omega)
    · have hbelow := hneg 0 m hm
      rcases Nat.eq_zero_or_pos n with rfl | hn
      · exact hbelow
      · exact hbelow.trans (hnat 0 n hn)
  · exact hneg n m (by omega)

section
variable {x y : Float}

theorem natAbs_weight (x : Float) : (weight x).natAbs = magnitude x := by
  unfold weight
  split_ifs <;> omega

theorem weight_neg (h : magnitude x ≤ infiniteMagnitude) : weight (-x) = -weight x := by
  obtain ⟨hsign, hmagnitude⟩ := neg_number h
  unfold weight
  rw [hsign, hmagnitude]
  cases isNegative x <;> simp

/-- The rational that a finite double denotes. -/
def exact (x : Float) : ℚ := ofWeight (weight x)

theorem exact_eq (x : Float) : exact x = signed (isNegative x) (units (magnitude x) / finest) := by
  unfold exact weight signed
  split_ifs
  · rw [ofWeight_neg, ofWeight_natCast]
  · exact ofWeight_natCast _

theorem toRat?_exact (h : magnitude x < infiniteMagnitude) : toRat? x = some (exact x) := by
  rw [toRat?_eq h, exact_eq]
  rfl

theorem exact_neg (h : magnitude x ≤ infiniteMagnitude) : exact (-x) = -exact x := by
  rw [exact, weight_neg h, ofWeight_neg, exact]

theorem exact_of_zero (h : magnitude x = 0) : exact x = 0 := by
  rw [exact_eq, h, units_zero]
  simp [signed]

theorem magnitude_pos (h : exact x ≠ 0) : 0 < magnitude x :=
  Nat.pos_of_ne_zero (mt exact_of_zero h)

theorem exact_pos : 0 < exact x ↔ 0 < weight x := by
  rw [exact, ← ofWeight_zero]
  exact ofWeight_strictMono.lt_iff_lt

theorem exact_lt_zero : exact x < 0 ↔ weight x < 0 := by
  rw [exact, ← ofWeight_zero]
  exact ofWeight_strictMono.lt_iff_lt

/-- Finite doubles are ordered like the rationals that they denote. -/
theorem le_iff_exact (hx : magnitude x < infiniteMagnitude) (hy : magnitude y < infiniteMagnitude) :
    x ≤ y ↔ exact x ≤ exact y := by
  rw [le_iff, exact, exact, ofWeight_strictMono.le_iff_le]
  exact ⟨fun h => h.2.2, fun h => ⟨hx.le, hy.le, h⟩⟩

/-- Finite doubles are ordered strictly like the rationals that they denote. -/
theorem lt_iff_exact (hx : magnitude x < infiniteMagnitude) (hy : magnitude y < infiniteMagnitude) :
    x < y ↔ exact x < exact y := by
  rw [lt_iff, exact, exact, ofWeight_strictMono.lt_iff_lt]
  exact ⟨fun h => h.2.2, fun h => ⟨hx.le, hy.le, h⟩⟩

theorem toRat?_eq_some {q : ℚ} (h : toRat? x = some q) :
    magnitude x < infiniteMagnitude ∧ q = exact x := by
  have hfinite : magnitude x < infiniteMagnitude := by
    by_contra hlarge
    unfold toRat? at h
    rw [if_neg hlarge] at h
    cases h
  rw [toRat?_exact hfinite] at h
  exact ⟨hfinite, (Option.some.inj h).symm⟩

/-! ## Neighbours -/

theorem weight_ofMagnitude (s : Bool) {m : Nat} (h : m ≤ infiniteMagnitude) :
    weight (ofMagnitude s m) = if s then -(m : Int) else m := by
  obtain ⟨hsign, hmagnitude⟩ := number_ofMagnitude s h
  rw [weight, hsign, hmagnitude]

theorem weight_le (h : magnitude x ≤ infiniteMagnitude) :
    -(infiniteMagnitude : Int) ≤ weight x ∧ weight x ≤ infiniteMagnitude := by
  have hown := natAbs_weight x
  omega

/-- Below infinity the step up is a step of the magnitude away from zero or towards it. -/
theorem nextUp_eq (h : magnitude x ≤ infiniteMagnitude) (hlt : weight x < infiniteMagnitude) :
    nextUp x = if magnitude x = 0 then ofMagnitude false 1
      else if isNegative x then ofMagnitude true (magnitude x - 1)
      else ofMagnitude false (magnitude x + 1) := by
  have hinfinite : (!isNegative x && magnitude x == infiniteMagnitude) = false := by
    unfold weight at hlt
    cases hs : isNegative x with
    | true => rfl
    | false =>
      simp only [hs, Bool.false_eq_true, if_false, Nat.cast_lt] at hlt
      simp [hlt.ne]
  unfold nextUp
  simp only [isNaN_eq_false.mpr h, hinfinite, Bool.or_false, Bool.false_eq_true, if_false]

theorem weight_nextUp (h : magnitude x ≤ infiniteMagnitude) (hlt : weight x < infiniteMagnitude) :
    weight (nextUp x) = weight x + 1 := by
  have hinf : 1 ≤ infiniteMagnitude := by decide
  rw [nextUp_eq h hlt]
  unfold weight at hlt
  split_ifs with hzero hs
  · rw [weight_ofMagnitude false hinf, weight, hzero]
    cases isNegative x <;> rfl
  · rw [weight_ofMagnitude true (by omega), weight, hs]
    simp only [if_true]
    omega
  · rw [if_neg hs] at hlt
    rw [weight_ofMagnitude false (by omega), weight, if_neg hs]
    simp

theorem nextUp_of_le (h : magnitude x ≤ infiniteMagnitude) (hle : infiniteMagnitude ≤ weight x) :
    nextUp x = x := by
  have hpos : 0 < infiniteMagnitude := by decide
  have hinf : isNegative x = false ∧ magnitude x = infiniteMagnitude := by
    unfold weight at hle
    split_ifs at hle with hs
    · omega
    · exact ⟨Bool.eq_false_iff.mpr hs, by omega⟩
  unfold nextUp
  rw [hinf.1, hinf.2]
  simp

theorem number_nextUp (h : magnitude x ≤ infiniteMagnitude) :
    magnitude (nextUp x) ≤ infiniteMagnitude := by
  have hown := natAbs_weight x
  rcases lt_or_ge (weight x) infiniteMagnitude with hlt | hle
  · have hstep := weight_nextUp h hlt
    rw [← natAbs_weight, hstep]
    omega
  · rwa [nextUp_of_le h hle]

theorem weight_nextUp_of_finite (hx : magnitude x ≤ infiniteMagnitude)
    (h : magnitude (nextUp x) < infiniteMagnitude) :
    weight x < infiniteMagnitude ∧ weight (nextUp x) = weight x + 1 := by
  have hlt : weight x < infiniteMagnitude := by
    by_contra hle
    have hown := natAbs_weight x
    rw [nextUp_of_le hx (not_lt.mp hle)] at h
    omega
  exact ⟨hlt, weight_nextUp hx hlt⟩

theorem number_nextDown (h : magnitude x ≤ infiniteMagnitude) :
    magnitude (nextDown x) ≤ infiniteMagnitude := by
  have hneg := (neg_number h).2.trans_le h
  exact (neg_number (number_nextUp hneg)).2.trans_le (number_nextUp hneg)

theorem weight_nextDown (h : magnitude x ≤ infiniteMagnitude)
    (hlt : -(infiniteMagnitude : Int) < weight x) : weight (nextDown x) = weight x - 1 := by
  have hneg := (neg_number h).2.trans_le h
  have hweight := weight_neg h
  have hstep := weight_nextUp hneg (by omega)
  rw [nextDown, weight_neg (number_nextUp hneg), hstep, hweight]
  omega

theorem weight_nextDown_of_finite (hx : magnitude x ≤ infiniteMagnitude)
    (h : magnitude (nextDown x) < infiniteMagnitude) :
    -(infiniteMagnitude : Int) < weight x ∧ weight (nextDown x) = weight x - 1 := by
  have hneg : magnitude (-x) ≤ infiniteMagnitude := (neg_number hx).2.trans_le hx
  have hnext : magnitude (nextUp (-x)) < infiniteMagnitude :=
    (neg_number (number_nextUp hneg)).2.symm.trans_lt h
  have hlt : -(infiniteMagnitude : Int) < weight x := by
    have hlt := (weight_nextUp_of_finite hneg hnext).1
    rw [weight_neg hx] at hlt
    omega
  exact ⟨hlt, weight_nextDown hx hlt⟩

end

end Recoding.Binary64
