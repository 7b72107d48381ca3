import Recoding.Proofs.Lattice.Descents

/-!
# Identifiers as mixed-radix numbers

Below 2^64 transformations the identifiers of a lattice are exactly the level tuples within its
bounds, written as numbers whose digits are the levels. A neighbour changes one digit by one.
Adding up an identifier in 64-bit words never overflows, since what is added up so far is always
less than what the next digit is worth.
-/

namespace Recoding.Lattice

/-! ## Identifiers of levels -/

theorem within_iff {axes : List Axis} {levels : List Nat} : Within axes levels ↔
    List.Forall₂ (· ≤ ·) (axes.map Axis.low) levels ∧
      List.Forall₂ (· ≤ ·) levels (axes.map Axis.high) := by
  constructor
  · exact fun h => ⟨h.low_le, h.le_high⟩
  · rintro ⟨hlow, hhigh⟩
    induction axes generalizing levels with
    | nil =>
      cases hlow
      exact List.Forall₂.nil
    | cons a axes ih =>
      cases hlow with
      | cons hl hlow =>
        cases hhigh with
        | cons hh hhigh => exact List.Forall₂.cons ⟨hl, hh⟩ (ih hlow hhigh)

theorem outside?_eq_none (column : Nat) {axes : List Axis} {levels : List Nat}
    (h : levels.length = axes.length) :
    outside? column axes levels = none ↔ Within axes levels := by
  induction axes generalizing column levels with
  | nil =>
    obtain rfl : levels = [] := List.eq_nil_of_length_eq_zero h
    exact iff_of_true rfl List.Forall₂.nil
  | cons a axes ih =>
    cases levels with
    | nil => simp at h
    | cons level levels =>
      have hlength : levels.length = axes.length := by simpa using h
      have hrest := ih (column + 1) hlength
      rw [outside?, Within, List.forall₂_cons]
      split_ifs with hout
      · apply iff_of_false
        · intro hnone
          cases hnone
        · rintro ⟨hin, -⟩
          omega
      · rw [hrest]
        exact (and_iff_right (by omega)).symm

theorem idOf_eq_ok {l : Lattice} {levels : List Nat} {id : Nat} :
    l.idOf levels = .ok id ↔ Within l.axes levels ∧ id = encode l.axes levels := by
  unfold idOf
  split_ifs with hlength
  · exact iff_of_false (nofun) fun ⟨hwithin, _⟩ => hlength hwithin.length_eq.symm
  · rw [← outside?_eq_none 0 (not_not.mp hlength)]
    cases outside? 0 l.axes levels with
    | some fault => exact iff_of_false (nofun) fun ⟨hnone, _⟩ => nomatch hnone
    | none =>
      rw [Except.ok.injEq]
      exact ⟨fun h => ⟨rfl, h.symm⟩, fun h => h.2.symm⟩

theorem levelsOf_iff_idOf {l : Lattice} {levels : List Nat} {id : Nat} :
    l.levelsOf id = .ok levels ↔ l.idOf levels = .ok id := by
  rw [idOf_eq_ok]
  constructor
  · intro h
    have hwithin := levelsOf_within h
    exact ⟨hwithin, levelsOf_inj h (levelsOf_encode hwithin)⟩
  · rintro ⟨hwithin, rfl⟩
    exact levelsOf_encode hwithin

theorem exists_levelsOf_iff {l : Lattice} {id : Nat} :
    (∃ levels, l.levelsOf id = .ok levels) ↔ id < l.size :=
  ⟨fun ⟨_, h⟩ => (levelsOf_ok h).1, fun h => ⟨_, levelsOf_levelsAt h⟩⟩

theorem volume_eq_combinations (axes : List Axis) :
    volume axes = combinations (axes.map Axis.low) (axes.map Axis.high) := by
  induction axes with
  | nil => rfl
  | cons a axes ih =>
    rw [List.map_cons, List.map_cons, combinations_cons, volume, ih]
    rfl

/-! ## Sums of words -/

/-- The identifier of levels, added up in words. `total` is the sum over the axes before, and
`weight` is what a level of the first axis is worth. -/
def addUp? (total weight : Nat) : List Axis → List Nat → Option Nat
  | a :: axes, level :: levels => do
    let product ← word? ((level - a.low) * weight)
    let sum ← word? (total + product)
    let next ← word? (weight * a.radix)
    addUp? sum next axes levels
  | _, _ => some total

/-- No product and no sum on the way to an identifier overflows. -/
theorem addUp?_eq {axes : List Axis} {levels : List Nat} (h : Within axes levels)
    {total weight : Nat} (htotal : total < weight) (hfits : weight * volume axes < 2 ^ 64) :
    addUp? total weight axes levels = some (total + weight * encode axes levels) := by
  induction h generalizing total weight with
  | nil => rfl
  | @cons a level axes levels hl _ ih =>
    have hassoc : weight * volume (a :: axes) = weight * a.radix * volume axes := by
      rw [volume, Nat.mul_assoc]
    rw [hassoc] at hfits
    have hnext : weight * a.radix ≤ weight * a.radix * volume axes :=
      Nat.le_mul_of_pos_right _ (volume_pos axes)
    -- the digit is less than the radix, so the sum so far is less than the next weight
    have hproduct : (level - a.low) * weight + weight ≤ weight * a.radix := by
      rw [← Nat.succ_mul, Nat.mul_comm]
      exact Nat.mul_le_mul_left _ (Within.sub_lt hl)
    have hsum : total + (level - a.low) * weight + weight * a.radix * encode axes levels =
        total + weight * encode (a :: axes) (level :: levels) := by
      rw [mul_encode_cons, Nat.mul_comm weight (level - a.low), Nat.add_assoc]
    have hproduct? := word?_eq (n := (level - a.low) * weight) (by omega)
    have hsum? := word?_eq (n := total + (level - a.low) * weight) (by omega)
    have hnext? := word?_eq (n := weight * a.radix) (by omega)
    simp only [addUp?, hproduct?, hsum?, hnext?, Option.bind_eq_bind, Option.bind_some]
    rw [ih (by omega) hfits, hsum]

/-! ## Neighbours -/

/-- One transformation is the other one with the level of a column raised by one. -/
def RaisedAt (l : Lattice) (column low high : Nat) : Prop :=
  ∃ levels, column < levels.length ∧ l.levelsOf low = .ok levels ∧
    l.levelsOf high = .ok (levels.modify column (· + 1))

theorem raises_iff {low high : List Nat} :
    Raises low high ↔ ∃ i < low.length, high = low.modify i (· + 1) := by
  constructor
  · intro h
    induction h with
    | head level levels => exact ⟨0, Nat.zero_lt_succ _, rfl⟩
    | tail level _ ih =>
      obtain ⟨i, hi, rfl⟩ := ih
      exact ⟨i + 1, Nat.succ_lt_succ hi, rfl⟩
  · rintro ⟨i, hi, rfl⟩
    induction low generalizing i with
    | nil => exact absurd hi (Nat.not_lt_zero i)
    | cons level levels ih =>
      cases i with
      | zero => exact Raises.head level levels
      | succ i => exact Raises.tail level (ih i (Nat.lt_of_succ_lt_succ hi))

theorem step_iff_raisedAt {l : Lattice} {low high : Nat} :
    l.Step low high ↔ ∃ column, l.RaisedAt column low high := by
  constructor
  · rintro ⟨hlow, hhigh, hraise⟩
    obtain ⟨i, hi, he⟩ := raises_iff.mp hraise
    exact ⟨i, _, hi, levelsOf_levelsAt hlow, he ▸ levelsOf_levelsAt hhigh⟩
  · rintro ⟨i, levels, hi, hlow, hhigh⟩
    obtain ⟨hlow', rfl⟩ := levelsOf_ok hlow
    obtain ⟨hhigh', he⟩ := levelsOf_ok hhigh
    exact ⟨hlow', hhigh', raises_iff.mpr ⟨i, hi, he.symm⟩⟩

theorem pairwise_of_along {R : Nat → Nat → Prop} {columns ids : List Nat}
    (h : List.Forall₂ R columns ids) (hsorted : columns.Pairwise (· < ·)) :
    ids.Pairwise fun a b => ∃ i j, i < j ∧ R i a ∧ R j b := by
  induction h with
  | nil => exact List.Pairwise.nil
  | @cons i a columns ids hi hrest ih =>
    obtain ⟨hfirst, hsorted⟩ := List.pairwise_cons.mp hsorted
    refine List.pairwise_cons.mpr ⟨fun b hb => ?_, ih hsorted⟩
    obtain ⟨n, hn, rfl⟩ := List.getElem_of_mem hb
    have hlength : n < columns.length := hrest.length_eq ▸ hn
    exact ⟨i, columns[n], hfirst _ (List.getElem_mem hlength), hi, hrest.get hlength hn⟩

/-- A list along the columns of all axes, from one along those of the axes after the first. -/
theorem along_cons {R S : Nat → Nat → Prop} {ids : List Nat} {first : Prop} [Decidable first]
    {id : Nat} (hrest : ∃ columns : List Nat, columns.Pairwise (· < ·) ∧
      List.Forall₂ S columns ids) (hsucc : ∀ i a, S i a → R (i + 1) a)
    (hfirst : first → R 0 id) : ∃ columns : List Nat, columns.Pairwise (· < ·) ∧
      List.Forall₂ R columns (if first then id :: ids else ids) := by
  obtain ⟨columns, hsorted, hrest⟩ := hrest
  have hsorted' : (columns.map (· + 1)).Pairwise (· < ·) :=
    List.pairwise_map.mpr (hsorted.imp Nat.succ_lt_succ)
  have hrest' : List.Forall₂ R (columns.map (· + 1)) ids :=
    List.forall₂_map_left_iff.mpr (hrest.imp hsucc)
  split_ifs with h
  · refine ⟨0 :: columns.map (· + 1), List.pairwise_cons.mpr ⟨fun i hi => ?_, hsorted'⟩,
      List.Forall₂.cons (hfirst h) hrest'⟩
    obtain ⟨j, -, rfl⟩ := List.mem_map.mp hi
    exact Nat.succ_pos j
  · exact ⟨_, hsorted', hrest'⟩

theorem stepsUp_along {axes : List Axis} {levels : List Nat} (h : Within axes levels)
    (id weight : Nat) : ∃ columns : List Nat, columns.Pairwise (· < ·) ∧
      List.Forall₂ (fun i s => i < levels.length ∧ Within axes (levels.modify i (· + 1)) ∧
        s + weight * encode axes levels = id + weight * encode axes (levels.modify i (· + 1)))
        columns (stepsUp id weight axes levels) := by
  induction h generalizing weight with
  | nil => exact ⟨[], List.Pairwise.nil, List.Forall₂.nil⟩
  | @cons a level axes levels hl hrest ih =>
    refine along_cons (ih _) (fun i s hs => ?_) fun hlt => ?_
    · obtain ⟨hi, hwithin, hs⟩ := hs
      rw [List.modify_succ_cons, mul_encode_cons, mul_encode_cons]
      exact ⟨Nat.succ_lt_succ hi, List.Forall₂.cons hl hwithin, by omega⟩
    · rw [List.modify_zero_cons, mul_encode_cons, mul_encode_cons, Nat.sub_add_comm hl.1, Nat.mul_succ]
      exact ⟨Nat.zero_lt_succ _, List.Forall₂.cons ⟨by omega, hlt⟩ hrest, by omega⟩

theorem stepsDown_along {axes : List Axis} {levels : List Nat} (h : Within axes levels)
    {id : Nat} (weight : Nat) (hid : weight * encode axes levels ≤ id) :
    ∃ columns : List Nat, columns.Pairwise (· < ·) ∧
      List.Forall₂ (fun i p => ∃ low, i < low.length ∧ levels = low.modify i (· + 1) ∧
        Within axes low ∧ p + weight * encode axes levels = id + weight * encode axes low)
        columns (stepsDown id weight axes levels) := by
  induction h generalizing weight with
  | nil => exact ⟨[], List.Pairwise.nil, List.Forall₂.nil⟩
  | @cons a level axes levels hl hrest ih =>
    rw [mul_encode_cons] at hid
    refine along_cons (ih _ (by omega)) (fun i p hp => ?_) fun hlt => ?_
    · obtain ⟨low, hi, he, hwithin, hp⟩ := hp
      refine ⟨level :: low, Nat.succ_lt_succ hi, ?_, List.Forall₂.cons hl hwithin, ?_⟩
      · rw [List.modify_succ_cons, ← he]
      · rw [mul_encode_cons, mul_encode_cons]
        omega
    · obtain ⟨below, rfl⟩ : ∃ below, level = below + 1 := ⟨level - 1, by omega⟩
      have hsub : below + 1 - a.low = below - a.low + 1 := Nat.sub_add_comm (by omega)
      rw [hsub, Nat.mul_succ] at hid
      refine ⟨below :: levels, Nat.zero_lt_succ _, rfl,
        List.Forall₂.cons ⟨by omega, by omega⟩ hrest, ?_⟩
      rw [mul_encode_cons, mul_encode_cons, hsub, Nat.mul_succ]
      omega

/-- A list of everything that is related to a column, without repetition and in the order of the
columns. -/
structure Enumerates (R : Nat → Nat → Prop) (ids : List Nat) : Prop where
  mem_iff : ∀ v, v ∈ ids ↔ ∃ column, R column v
  nodup : ids.Nodup
  ordered : ids.Pairwise fun u v => ∃ i j, i < j ∧ R i u ∧ R j v

theorem RaisedAt.column_inj {l : Lattice} {i j low high : Nat} (hi : l.RaisedAt i low high)
    (hj : l.RaisedAt j low high) : i = j := by
  obtain ⟨levels, hlength, hlow, hhigh⟩ := hi
  obtain ⟨others, -, hlow', hhigh'⟩ := hj
  obtain rfl : levels = others := Except.ok.inj (hlow.symm.trans hlow')
  have hsame := Except.ok.inj (hhigh.symm.trans hhigh')
  have hat := congrArg (·[i]?) hsame
  by_contra hne
  simp [hlength, Ne.symm hne] at hat

theorem enumerates_of_along {R : Nat → Nat → Prop} {columns ids : List Nat}
    (h : List.Forall₂ R columns ids) (hsorted : columns.Pairwise (· < ·))
    (hinj : ∀ i j v, R i v → R j v → i = j) (hmem : ∀ v, v ∈ ids ↔ ∃ column, R column v) :
    Enumerates R ids where
  mem_iff := hmem
  nodup := by
    refine (pairwise_of_along h hsorted).imp ?_
    rintro u v ⟨i, j, hlt, hi, hj⟩ rfl
    exact hlt.ne (hinj i j u hi hj)
  ordered := pairwise_of_along h hsorted

section
variable {l : Lattice} {id : Nat} (h : id < l.size)
include h

theorem successors_enumerate : ∃ ids, l.successors id = .ok ids ∧
    Enumerates (l.RaisedAt · id ·) ids := by
  have hlevels := levelsOf_levelsAt h
  obtain ⟨ids, hids, hmem⟩ := exists_successors h
  refine ⟨ids, hids, ?_⟩
  obtain ⟨columns, hsorted, halong⟩ := stepsUp_along (decode_within l.axes id) id 1
  rw [successors, hlevels] at hids
  cases hids
  refine enumerates_of_along (halong.imp fun i s hs => ?_) hsorted
    (fun i j v => RaisedAt.column_inj) fun v => (hmem v).trans step_iff_raisedAt
  obtain ⟨hi, hwithin, hs⟩ := hs
  rw [encode_decode h] at hs
  obtain rfl : s = encode l.axes ((decode l.axes id).modify i (· + 1)) := by omega
  exact ⟨_, hi, hlevels, levelsOf_encode hwithin⟩

theorem predecessors_enumerate : ∃ ids, l.predecessors id = .ok ids ∧
    Enumerates (l.RaisedAt · · id) ids := by
  have hlevels := levelsOf_levelsAt h
  have hids : l.predecessors id = .ok (stepsDown id 1 l.axes (l.levelsAt id)) := by
    rw [predecessors, hlevels, map_ok]
  have hcode : 1 * encode l.axes (decode l.axes id) ≤ id := by rw [encode_decode h, Nat.one_mul]
  obtain ⟨columns, hsorted, halong⟩ := stepsDown_along (decode_within l.axes id) 1 hcode
  refine ⟨_, hids, enumerates_of_along (halong.imp fun i p hp => ?_) hsorted
    (fun i j v => RaisedAt.column_inj)
    fun v => ((predecessors_ok hids).2 v).trans step_iff_raisedAt⟩
  obtain ⟨low, hi, he, hwithin, hp⟩ := hp
  rw [encode_decode h] at hp
  obtain rfl : p = encode l.axes low := by omega
  exact ⟨low, hi, levelsOf_encode hwithin, by rw [← he]; exact hlevels⟩

end

/-- A lattice between ordered bounds can be created if the number of its transformations fits into
64 bits, and then identifiers and level tuples within the bounds determine each other, from the
minimum at the bottom to the maximum at the top, without any overflow. The neighbours of a
transformation are listed once each, in the order of the columns, and are those that differ from it
by one in one column. -/
theorem mixed_radix {minimum maximum : List Nat} (h : List.Forall₂ (· ≤ ·) minimum maximum) :
    ((∃ l, ofBounds minimum maximum = .ok l) ↔ combinations minimum maximum < 2 ^ 64) ∧
    ∀ l, ofBounds minimum maximum = .ok l →
      l.size = combinations minimum maximum ∧
      (∀ id levels, l.levelsOf id = .ok levels ↔ l.idOf levels = .ok id) ∧
      (∀ id, (∃ levels, l.levelsOf id = .ok levels) ↔ id < l.size) ∧
      (∀ levels, (∃ id, l.idOf levels = .ok id) ↔
        List.Forall₂ (· ≤ ·) minimum levels ∧ List.Forall₂ (· ≤ ·) levels maximum) ∧
      (l.levelsOf l.bottom = .ok minimum ∧ l.levelsOf l.top = .ok maximum) ∧
      (∀ id levels, l.idOf levels = .ok id → addUp? 0 1 l.axes levels = some id) ∧
      (∀ id < l.size, ∃ below above, l.predecessors id = .ok below ∧ l.successors id = .ok above ∧
        Enumerates (l.RaisedAt · · id) below ∧ Enumerates (l.RaisedAt · id ·) above) ∧
      ∀ p s below above, l.successors p = .ok above → l.predecessors s = .ok below →
        (p ∈ below ↔ s ∈ above) := by
  have hcases := ofBounds_cases h
  refine ⟨?_, fun l hl => ?_⟩
  · rcases hcases with ⟨hlt, hok⟩ | ⟨hge, herror⟩
    · exact iff_of_true hok hlt
    · rw [herror]
      exact iff_of_false (nofun) hge.not_gt
  obtain ⟨hmin, hmax⟩ := ofBounds_ok hl
  have hsize : l.size = combinations minimum maximum := by
    rw [← hmin, ← hmax]
    exact volume_eq_combinations l.axes
  have hfits : l.size < 2 ^ 64 := by
    rcases hcases with ⟨hlt, -⟩ | ⟨-, herror⟩
    · exact hsize ▸ hlt
    · rw [herror] at hl
      cases hl
  refine ⟨hsize, fun _ _ => levelsOf_iff_idOf, fun _ => exists_levelsOf_iff, fun levels => ?_,
    ⟨?_, ?_⟩, fun id levels hid => ?_, fun id hid => ?_, fun p s below above habove hbelow => ?_⟩
  · rw [← hmin, ← hmax]
    refine Iff.trans ?_ within_iff
    exact ⟨fun ⟨id, hid⟩ => (idOf_eq_ok.mp hid).1, fun hw => ⟨_, idOf_eq_ok.mpr ⟨hw, rfl⟩⟩⟩
  · rw [levelsOf_bottom, hmin]
  · rw [levelsOf_levelsAt l.top_lt_size, levelsAt_top, hmax]
  · obtain ⟨hwithin, rfl⟩ := idOf_eq_ok.mp hid
    rw [addUp?_eq hwithin Nat.one_pos (by rw [Nat.one_mul]; exact hfits), Nat.zero_add,
      Nat.one_mul]
  · obtain ⟨below, hbelow, hbelow'⟩ := predecessors_enumerate hid
    obtain ⟨above, habove, habove'⟩ := successors_enumerate hid
    exact ⟨below, above, hbelow, habove, hbelow', habove'⟩
  · obtain ⟨levels, hlevels, -⟩ := map_eq_ok.mp habove
    obtain ⟨others, hothers, hsteps⟩ := exists_successors (levelsOf_ok hlevels).1
    obtain rfl : others = above := Except.ok.inj (hothers.symm.trans habove)
    exact ((predecessors_ok hbelow).2 p).trans (hsteps s).symm

/-- In a lattice with three columns, the second of which starts at 1, five of the six steps from
[1, 2, 0] stay within the bounds. -/
theorem mixed_radix_sample : ∃ l, ofBounds [0, 1, 0] [2, 3, 1] = .ok l ∧ l.size = 18 ∧
    l.levelsOf 4 = .ok [1, 2, 0] ∧ l.predecessors 4 = .ok [3, 1] ∧
      l.successors 4 = .ok [5, 7, 13] ∧ addUp? 0 1 l.axes [1, 2, 0] = some 4 ∧
      Enumerates (l.RaisedAt · 4 ·) [5, 7, 13] := by
  have hbounds : List.Forall₂ (· ≤ ·) [0, 1, 0] [2, 3, 1] := by decide
  obtain ⟨hexists, hmixed⟩ := mixed_radix hbounds
  obtain ⟨l, hl⟩ := hexists.mpr (by decide)
  obtain ⟨hsize, hinverse, -, -, -, hwords, hneighbours, -⟩ := hmixed l hl
  obtain ⟨below, above, -, habove, -, hlisted⟩ := hneighbours 4 (by rw [hsize]; decide)
  cases hl
  cases habove
  exact ⟨_, rfl, hsize, rfl, rfl, rfl, hwords _ _ ((hinverse _ _).mp rfl), hlisted⟩

end Recoding.Lattice
