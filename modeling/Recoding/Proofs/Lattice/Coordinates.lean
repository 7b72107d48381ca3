import Recoding.Lattice.Basic
import Recoding.Proofs.Outcome

/-!
# Coordinates of transformations

Identifiers below the size of a lattice and level tuples within its axes determine each other.
In coordinates a successor raises one level by one, so every transformation is reached from
the bottom by raising levels one at a time.
-/

namespace Recoding.Lattice

def Within (axes : List Axis) (levels : List Nat) : Prop :=
  List.Forall₂ (fun (a : Axis) level => a.low ≤ level ∧ level ≤ a.high) axes levels

theorem volume_pos (axes : List Axis) : 0 < volume axes := by
  induction axes with
  | nil => exact Nat.one_pos
  | cons a axes ih => exact Nat.mul_pos a.radix_pos ih

theorem size_pos (l : Lattice) : 0 < l.size := volume_pos l.axes

theorem decode_within (axes : List Axis) (id : Nat) : Within axes (decode axes id) := by
  induction axes generalizing id with
  | nil => exact List.Forall₂.nil
  | cons a axes ih =>
    refine List.Forall₂.cons ⟨Nat.le_add_right _ _, ?_⟩ (ih _)
    have hlt := Nat.mod_lt id a.radix_pos
    have hle := a.low_le_high
    unfold Axis.radix at hlt ⊢
    omega

theorem encode_decode {axes : List Axis} {id : Nat} (h : id < volume axes) :
    encode axes (decode axes id) = id := by
  induction axes generalizing id with
  | nil =>
    have : id = 0 := by simpa [volume] using h
    simp [encode, this]
  | cons a axes ih =>
    have hlt : id / a.radix < volume axes := Nat.div_lt_of_lt_mul h
    rw [decode, encode, ih hlt, Nat.add_sub_cancel_left]
    exact Nat.mod_add_div id a.radix

theorem Within.sub_lt {a : Axis} {level : Nat} (h : a.low ≤ level ∧ level ≤ a.high) :
    level - a.low < a.radix := by
  unfold Axis.radix
  omega

theorem Within.encode_lt {axes : List Axis} {levels : List Nat} (h : Within axes levels) :
    encode axes levels < volume axes := by
  induction h with
  | nil => exact Nat.one_pos
  | @cons a level axes levels hl _ ih =>
    have hsub := Within.sub_lt hl
    have hmul : a.radix * (encode axes levels + 1) ≤ a.radix * volume axes :=
      Nat.mul_le_mul_left _ ih
    rw [Nat.mul_succ] at hmul
    simp only [encode, volume]
    omega

theorem Within.decode_encode {axes : List Axis} {levels : List Nat} (h : Within axes levels) :
    decode axes (encode axes levels) = levels := by
  induction h with
  | nil => rfl
  | @cons a level axes levels hl _ ih =>
    have hsub := Within.sub_lt hl
    rw [encode, decode, Nat.add_mul_mod_self_left, Nat.mod_eq_of_lt hsub,
      Nat.add_mul_div_left _ _ a.radix_pos, Nat.div_eq_of_lt hsub, Nat.zero_add, ih,
      Nat.add_sub_cancel' hl.1]

section
variable {l : Lattice} {id : Nat} {levels : List Nat}

theorem levelsOf_eq (h : id < l.size) : l.levelsOf id = .ok (decode l.axes id) := if_pos h

def levelsAt (l : Lattice) (id : Nat) : List Nat := decode l.axes id

theorem levelsOf_levelsAt (h : id < l.size) : l.levelsOf id = .ok (l.levelsAt id) := if_pos h

theorem levelsOf_ok (h : l.levelsOf id = .ok levels) :
    id < l.size ∧ levels = decode l.axes id := by
  unfold levelsOf at h
  split_ifs at h with hlt
  exact ⟨hlt, (Except.ok.inj h).symm⟩

theorem levelsOf_within (h : l.levelsOf id = .ok levels) : Within l.axes levels := by
  obtain ⟨-, rfl⟩ := levelsOf_ok h
  exact decode_within l.axes id

theorem levelsOf_inj {other : Nat} (h : l.levelsOf id = .ok levels)
    (k : l.levelsOf other = .ok levels) : id = other := by
  obtain ⟨hid, hlevels⟩ := levelsOf_ok h
  obtain ⟨hother, hsame⟩ := levelsOf_ok k
  rw [← encode_decode hid, ← encode_decode hother, ← hlevels, ← hsame]

theorem levelsOf_encode (h : Within l.axes levels) :
    l.levelsOf (encode l.axes levels) = .ok levels := by
  rw [levelsOf_eq h.encode_lt, h.decode_encode]

end

theorem axesBetween_ok {size : Nat} {minimum maximum : List Nat} {axes : List Axis}
    (hlength : minimum.length = maximum.length)
    (h : axesBetween size minimum maximum = .ok axes) :
    axes.map Axis.low = minimum ∧ axes.map Axis.high = maximum := by
  induction minimum generalizing size maximum axes with
  | nil =>
    cases maximum with
    | nil =>
      cases h
      exact ⟨rfl, rfl⟩
    | cons high highs => simp at hlength
  | cons low lows ih =>
    cases maximum with
    | nil => simp at hlength
    | cons high highs =>
      simp only [axesBetween] at h
      split_ifs at h with hle hsize
      cases hrest : axesBetween (size * Axis.radix ⟨low, high, hle⟩) lows highs with
      | error e =>
        rw [hrest] at h
        cases h
      | ok rest =>
        rw [hrest] at h
        cases h
        obtain ⟨hlows, hhighs⟩ := ih (by simpa using hlength) hrest
        exact ⟨by simp [hlows], by simp [hhighs]⟩

theorem ofBounds_ok {minimum maximum : List Nat} {l : Lattice}
    (h : ofBounds minimum maximum = .ok l) :
    l.minLevels = minimum ∧ l.maxLevels = maximum := by
  unfold ofBounds at h
  split_ifs at h with hlength
  cases haxes : axesBetween 1 minimum maximum with
  | error e =>
    rw [haxes] at h
    cases h
  | ok axes =>
    rw [haxes] at h
    cases h
    exact axesBetween_ok (not_not.mp hlength) haxes

def combinations (minimum maximum : List Nat) : Nat :=
  (List.zipWith (fun low high => high - low + 1) minimum maximum).prod

theorem combinations_cons (low high : Nat) (lows highs : List Nat) :
    combinations (low :: lows) (high :: highs) = (high - low + 1) * combinations lows highs :=
  List.prod_cons

theorem combinations_pos {minimum maximum : List Nat}
    (h : List.Forall₂ (· ≤ ·) minimum maximum) : 0 < combinations minimum maximum := by
  induction h with
  | nil => exact Nat.one_pos
  | cons hle hrest ih =>
    rw [combinations_cons]
    exact Nat.mul_pos (Nat.succ_pos _) ih

/-- Between ordered bounds nothing can go wrong but that there are too many transformations. -/
theorem axesBetween_cases {size : Nat} (hsize : size < 2 ^ 64) {minimum maximum : List Nat}
    (h : List.Forall₂ (· ≤ ·) minimum maximum) :
    size * combinations minimum maximum < 2 ^ 64 ∧
        (∃ axes, axesBetween size minimum maximum = .ok axes) ∨
      2 ^ 64 ≤ size * combinations minimum maximum ∧
        axesBetween size minimum maximum = .error .latticeTooLarge := by
  induction h generalizing size with
  | nil => exact Or.inl ⟨(Nat.mul_one size).trans_lt hsize, [], rfl⟩
  | @cons low high lows highs hle hrest ih =>
    have hassoc : size * combinations (low :: lows) (high :: highs) =
        size * Axis.radix ⟨low, high, hle⟩ * combinations lows highs := by
      rw [combinations_cons, ← Nat.mul_assoc, Axis.radix]
    rw [hassoc, axesBetween, dif_pos hle]
    dsimp only
    by_cases hfits : size * Axis.radix ⟨low, high, hle⟩ < 2 ^ 64
    · rw [if_pos hfits]
      refine (ih hfits).imp (fun ⟨hlt, axes, haxes⟩ => ⟨hlt, ?_⟩) fun ⟨hge, herror⟩ => ⟨hge, ?_⟩
      · exact ⟨_, by rw [haxes, map_ok]⟩
      · rw [herror, map_error]
    · rw [if_neg hfits]
      exact Or.inr ⟨(not_lt.mp hfits).trans (Nat.le_mul_of_pos_right _ (combinations_pos hrest)),
        rfl⟩

theorem ofBounds_cases {minimum maximum : List Nat}
    (h : List.Forall₂ (· ≤ ·) minimum maximum) :
    combinations minimum maximum < 2 ^ 64 ∧ (∃ l, ofBounds minimum maximum = .ok l) ∨
      2 ^ 64 ≤ combinations minimum maximum ∧
        ofBounds minimum maximum = .error .latticeTooLarge := by
  have hcases := axesBetween_cases (by decide : 1 < 2 ^ 64) h
  rw [Nat.one_mul] at hcases
  unfold ofBounds
  rw [if_neg (not_not.mpr h.length_eq)]
  refine hcases.imp (fun ⟨hlt, axes, haxes⟩ => ⟨hlt, ?_⟩) fun ⟨hge, herror⟩ => ⟨hge, ?_⟩
  · exact ⟨⟨axes⟩, by rw [haxes, map_ok]⟩
  · rw [herror, map_error]

theorem Within.le_high {axes : List Axis} {levels : List Nat} (h : Within axes levels) :
    List.Forall₂ (· ≤ ·) levels (axes.map Axis.high) := by
  induction h with
  | nil => exact List.Forall₂.nil
  | cons hl _ ih => exact List.Forall₂.cons hl.2 ih

theorem Within.low_le {axes : List Axis} {levels : List Nat} (h : Within axes levels) :
    List.Forall₂ (· ≤ ·) (axes.map Axis.low) levels := by
  induction h with
  | nil => exact List.Forall₂.nil
  | cons hl _ ih => exact List.Forall₂.cons hl.1 ih

theorem levels_trans {low middle high : List Nat} (h : List.Forall₂ (· ≤ ·) low middle)
    (k : List.Forall₂ (· ≤ ·) middle high) : List.Forall₂ (· ≤ ·) low high := by
  induction h generalizing high with
  | nil => exact k
  | cons hx _ ih =>
    cases k with
    | cons hy k => exact List.Forall₂.cons (hx.trans hy) (ih k)

/-! ## Steps -/

/-- One level is raised by one. -/
inductive Raises : List Nat → List Nat → Prop
  | head (level : Nat) (levels : List Nat) : Raises (level :: levels) ((level + 1) :: levels)
  | tail {low high : List Nat} (level : Nat) (rest : Raises low high) :
      Raises (level :: low) (level :: high)

theorem Raises.sum {low high : List Nat} (h : Raises low high) : high.sum = low.sum + 1 := by
  induction h with
  | head level levels => simp; omega
  | tail level _ ih => simp [ih]; omega

theorem Raises.le {low high : List Nat} (h : Raises low high) :
    List.Forall₂ (· ≤ ·) low high := by
  induction h with
  | head level levels => exact List.Forall₂.cons (Nat.le_succ _) (List.forall₂_refl _)
  | tail level _ ih => exact List.Forall₂.cons le_rfl ih

theorem cons_raises_iff {level : Nat} {levels high : List Nat} :
    Raises (level :: levels) high ↔
      high = (level + 1) :: levels ∨ ∃ rest, Raises levels rest ∧ high = level :: rest := by
  constructor
  · intro h
    cases h with
    | head => exact Or.inl rfl
    | tail _ rest => exact Or.inr ⟨_, rest, rfl⟩
  · rintro (rfl | ⟨rest, h, rfl⟩)
    · exact Raises.head level levels
    · exact Raises.tail level h

theorem mul_encode_cons (weight level : Nat) (a : Axis) (axes : List Axis) (levels : List Nat) :
    weight * encode (a :: axes) (level :: levels) =
      weight * (level - a.low) + weight * a.radix * encode axes levels := by
  rw [encode, Nat.mul_add, Nat.mul_assoc]

theorem mul_encode_succ {a : Axis} {level : Nat} (h : a.low ≤ level) (weight : Nat)
    (axes : List Axis) (levels : List Nat) : weight * encode (a :: axes) ((level + 1) :: levels) =
      weight * encode (a :: axes) (level :: levels) + weight := by
  rw [← Nat.mul_succ]
  congr 1
  simp only [encode]
  omega

/-- The identifiers of levels that differ behind the first column, with and without that column. -/
theorem exists_tail_iff {P : List Nat → Prop} {a : Axis} {axes : List Axis} {level : Nat}
    (hl : a.low ≤ level ∧ level ≤ a.high) (levels : List Nat) (id weight w : Nat) :
    (∃ next, P next ∧ Within axes next ∧
      w + weight * a.radix * encode axes levels = id + weight * a.radix * encode axes next) ↔
    ∃ next, P next ∧ Within (a :: axes) (level :: next) ∧
      w + weight * encode (a :: axes) (level :: levels) =
        id + weight * encode (a :: axes) (level :: next) := by
  refine exists_congr fun next => and_congr_right fun _ => and_congr ?_ ?_
  · rw [Within, Within, List.forall₂_cons]
    exact (and_iff_right hl).symm
  · rw [mul_encode_cons, mul_encode_cons]
    omega

theorem mem_stepsUp {axes : List Axis} {levels : List Nat} (h : Within axes levels)
    {id weight w : Nat} :
    w ∈ stepsUp id weight axes levels ↔ ∃ high, Raises levels high ∧ Within axes high ∧
      w + weight * encode axes levels = id + weight * encode axes high := by
  induction h generalizing weight with
  | nil => exact ⟨fun hw => absurd hw List.not_mem_nil, fun ⟨_, hraise, _⟩ => nomatch hraise⟩
  | @cons a level axes levels hl hrest ih =>
    have htail := ih.trans (exists_tail_iff hl levels id weight w)
    have hstep : (w = id + weight ∧ level < a.high) ↔
        Within (a :: axes) ((level + 1) :: levels) ∧
          w + weight * encode (a :: axes) (level :: levels) =
            id + weight * encode (a :: axes) ((level + 1) :: levels) := by
      rw [mul_encode_succ hl.1]
      constructor
      · rintro ⟨rfl, hlt⟩
        exact ⟨List.Forall₂.cons ⟨by omega, hlt⟩ hrest, by omega⟩
      · rintro ⟨hw, heq⟩
        cases hw with
        | cons hlevel _ => exact ⟨by omega, hlevel.2⟩
    have hsplit : w ∈ stepsUp id weight (a :: axes) (level :: levels) ↔
        (w = id + weight ∧ level < a.high) ∨ w ∈ stepsUp id (weight * a.radix) axes levels := by
      simp only [stepsUp]
      split_ifs with hlt <;> simp [hlt]
    rw [hsplit, hstep, htail]
    constructor
    · rintro (hw | ⟨high, hraise, hw⟩)
      · exact ⟨_, Raises.head level levels, hw⟩
      · exact ⟨_, Raises.tail level hraise, hw⟩
    · rintro ⟨high, hraise, hw⟩
      rcases cons_raises_iff.mp hraise with rfl | ⟨rest, hr, rfl⟩
      · exact Or.inl hw
      · exact Or.inr ⟨rest, hr, hw⟩

theorem mem_successors {l : Lattice} {id : Nat} {levels : List Nat} {ids : List Nat}
    (hlevels : l.levelsOf id = .ok levels) (h : l.successors id = .ok ids) {w : Nat} :
    w ∈ ids ↔ ∃ high, Raises levels high ∧ l.levelsOf w = .ok high := by
  rw [successors, hlevels] at h
  cases h
  obtain ⟨hid, rfl⟩ := levelsOf_ok hlevels
  have hencode := encode_decode hid
  rw [mem_stepsUp (decode_within l.axes id)]
  constructor
  · rintro ⟨high, hraise, hwithin, heq⟩
    refine ⟨high, hraise, ?_⟩
    have : w = encode l.axes high := by omega
    rw [this]
    exact levelsOf_encode hwithin
  · rintro ⟨high, hraise, hw⟩
    have hwithin := levelsOf_within hw
    have : w = encode l.axes high := levelsOf_inj hw (levelsOf_encode hwithin)
    exact ⟨high, hraise, hwithin, by omega⟩

/-- One transformation is a successor of another. -/
structure Step (l : Lattice) (id next : Nat) : Prop where
  left : id < l.size
  right : next < l.size
  raises : Raises (l.levelsAt id) (l.levelsAt next)

theorem exists_successors {l : Lattice} {id : Nat} (h : id < l.size) :
    ∃ ids, l.successors id = .ok ids ∧ ∀ next, next ∈ ids ↔ l.Step id next := by
  have hlevels := levelsOf_levelsAt h
  refine ⟨_, by rw [successors, hlevels]; rfl, fun next => ?_⟩
  rw [mem_successors hlevels (by rw [successors, hlevels]; rfl)]
  constructor
  · rintro ⟨high, hraise, hnext⟩
    obtain ⟨hlt, rfl⟩ := levelsOf_ok hnext
    exact ⟨h, hlt, hraise⟩
  · rintro ⟨-, hlt, hraise⟩
    exact ⟨_, hraise, levelsOf_levelsAt hlt⟩

/-- Levels below others are reached from below: they are equal, or one of the others is
lowered by one. -/
theorem exists_raises {low high : List Nat} (h : List.Forall₂ (· ≤ ·) low high)
    (hne : low ≠ high) : ∃ middle, List.Forall₂ (· ≤ ·) low middle ∧ Raises middle high := by
  induction h with
  | nil => exact absurd rfl hne
  | @cons x y low high hxy hrest ih =>
    by_cases hlt : x < y
    · obtain ⟨z, rfl⟩ := Nat.exists_eq_succ_of_ne_zero (Nat.ne_of_gt (Nat.zero_lt_of_lt hlt))
      exact ⟨z :: high, List.Forall₂.cons (Nat.lt_succ_iff.mp hlt) hrest, Raises.head z high⟩
    · have hxy : x = y := by omega
      subst hxy
      obtain ⟨middle, hle, hraise⟩ := ih fun he => hne (by rw [he])
      exact ⟨x :: middle, List.Forall₂.cons le_rfl hle, Raises.tail x hraise⟩

theorem Within.of_le {axes : List Axis} {low middle high : List Nat} (hl : Within axes low)
    (hh : Within axes high) (hlm : List.Forall₂ (· ≤ ·) low middle)
    (hmh : List.Forall₂ (· ≤ ·) middle high) : Within axes middle := by
  induction hl generalizing middle high with
  | nil =>
    cases hlm
    exact List.Forall₂.nil
  | cons hx _ ih =>
    cases hlm with
    | cons hxy hlm =>
      cases hmh with
      | cons hyz hmh =>
        cases hh with
        | cons hz hh => exact List.Forall₂.cons ⟨hx.1.trans hxy, hyz.trans hz.2⟩ (ih hh hlm hmh)

/-- A property that passes from transformations to their successors passes from every
transformation to all more generalized ones. -/
theorem climb {axes : List Axis} {P : List Nat → Prop} {low high : List Nat}
    (hl : Within axes low) (hh : Within axes high) (hle : List.Forall₂ (· ≤ ·) low high)
    (hlow : P low)
    (hstep : ∀ a b, Within axes a → Within axes b → List.Forall₂ (· ≤ ·) low a → Raises a b →
      P a → P b) : P high := by
  induction hn : high.sum generalizing high with
  | zero =>
    by_cases he : low = high
    · exact he ▸ hlow
    · obtain ⟨middle, -, hraise⟩ := exists_raises hle he
      have := hraise.sum
      omega
  | succ n ih =>
    by_cases he : low = high
    · exact he ▸ hlow
    · obtain ⟨middle, hlm, hraise⟩ := exists_raises hle he
      have hmiddle := hl.of_le hh hlm hraise.le
      have hsum := hraise.sum
      exact hstep middle high hmiddle hh hlm hraise (ih hmiddle hlm (by omega))

theorem climb_steps {l : Lattice} {property : Nat → Prop} {u v : Nat} (hu : u < l.size)
    (hv : v < l.size) (hle : List.Forall₂ (· ≤ ·) (l.levelsAt u) (l.levelsAt v))
    (h : property u) (hstep : ∀ a b, l.Step a b → property a → property b) : property v := by
  have hall : ∀ w < l.size, l.levelsAt w = l.levelsAt v → property w := by
    refine climb (P := fun levels => ∀ w < l.size, l.levelsAt w = levels → property w)
      (decode_within l.axes u) (decode_within l.axes v) hle ?_ ?_
    · intro w hw he
      have he : l.levelsAt w = l.levelsAt u := he
      exact levelsOf_inj (levelsOf_levelsAt hu) (he ▸ levelsOf_levelsAt hw) ▸ h
    · intro a b ha hb _ hraise ih w hw he
      have hup : l.Step (encode l.axes a) w :=
        ⟨ha.encode_lt, hw, by rw [levelsAt, ha.decode_encode, he]; exact hraise⟩
      exact hstep _ _ hup (ih _ ha.encode_lt ha.decode_encode)
  exact hall v hv rfl

theorem levelsOf_bottom (l : Lattice) : l.levelsOf l.bottom = .ok l.minLevels := by
  rw [bottom, levelsOf_eq l.size_pos]
  congr 1
  unfold minLevels
  induction l.axes with
  | nil => rfl
  | cons a axes ih => simp [decode, ih]

end Recoding.Lattice
