import Recoding.Proofs.Interval
import Recoding.Proofs.Random.Mechanism

/-!
# Draws by weight

Laid end to end, the weights of the candidates divide the targets below their sum into one interval
for each candidate, as long as its weight. A draw returns the candidate in whose interval the target
is. There is a draw exactly if some finite score is the highest, and it takes one word.
-/

namespace Recoding

open Binary64

namespace Mechanism

/-! ## The scan -/

theorem getLast?_cons_map {κ α : Type} (first : κ × α) (rest : List (κ × α)) :
    (first :: rest).getLast?.map Prod.fst = (rest.getLast?.map Prod.fst).or (some first.1) := by
  rw [List.getLast?_cons]
  cases rest.getLast? <;> rfl

section
variable {κ α : Type} [LT α] [DecidableLT α] [Sub α]

/-- The key whose weight covers the target when the weights are laid end to end, and none if the
target lies beyond all of them. -/
def covering (target : α) : List (κ × α) → Option κ
  | [] => none
  | (key, weight) :: rest => if target < weight then some key else covering (target - weight) rest

/-- A scan falls back to the last key only if no weight covers the target. -/
theorem locate_eq (target : α) (weighted : List (κ × α)) :
    locate target weighted = (covering target weighted).or (weighted.getLast?.map Prod.fst) := by
  induction weighted generalizing target with
  | nil => rfl
  | cons first rest ih =>
    obtain ⟨key, weight⟩ := first
    rw [locate, covering]
    split_ifs
    · rfl
    · rw [ih, Option.or_assoc, getLast?_cons_map]

theorem locate_of_covering {target : α} {key : κ} {weighted : List (κ × α)}
    (h : covering target weighted = some key) : locate target weighted = some key := by
  rw [locate_eq, h]
  rfl

end

/-! ## Intervals -/

/-- How far the weights before a position reach when they are laid end to end. -/
def reach {κ : Type} (weighted : List (κ × ℚ)) (i : Nat) : ℚ :=
  ((weighted.take i).map Prod.snd).sum

section
variable {κ : Type} {weighted : List (κ × ℚ)} {target : ℚ} {i j : Nat}

theorem reach_zero : reach weighted 0 = 0 := rfl

theorem reach_cons {first : κ × ℚ} :
    reach (first :: weighted) (i + 1) = first.2 + reach weighted i := by
  unfold reach
  rw [List.take_succ_cons, List.map_cons, List.sum_cons]

theorem reach_succ (h : i < weighted.length) :
    reach weighted (i + 1) = reach weighted i + weighted[i].2 := by
  unfold reach
  rw [List.take_succ_eq_append_getElem h, List.map_append, List.sum_append]
  simp

theorem reach_length : reach weighted weighted.length = (weighted.map Prod.snd).sum := by
  unfold reach
  rw [List.take_length]

theorem reach_mono (hweights : ∀ entry ∈ weighted, 0 ≤ entry.2) (h : i ≤ j) :
    reach weighted i ≤ reach weighted j := by
  unfold reach
  apply List.Sublist.sum_le_sum
  · exact (List.take_sublist_take_left h).map _
  · intro weight hweight
    obtain ⟨entry, hentry, rfl⟩ := List.mem_map.mp hweight
    exact hweights entry (List.mem_of_mem_take hentry)

theorem reach_nonneg (hweights : ∀ entry ∈ weighted, 0 ≤ entry.2) : 0 ≤ reach weighted i :=
  reach_mono hweights (Nat.zero_le i)

/-- The remaining target of the scan is what exceeds the weights passed so far, so it ends at the
position whose interval contains the target. -/
theorem exists_covering (hweights : ∀ entry ∈ weighted, 0 ≤ entry.2) (hnonneg : 0 ≤ target)
    (hlt : target < (weighted.map Prod.snd).sum) : ∃ i, ∃ h : i < weighted.length,
      covering target weighted = some weighted[i].1 ∧
        reach weighted i ≤ target ∧ target < reach weighted (i + 1) := by
  induction weighted generalizing target with
  | nil => exact absurd hlt (not_lt.mpr hnonneg)
  | cons first rest ih =>
    obtain ⟨key, weight⟩ := first
    rw [List.map_cons, List.sum_cons] at hlt
    rw [covering]
    -- the rest is scanned for what the first weight leaves of the target
    split_ifs with hcovered
    · refine ⟨0, Nat.zero_lt_succ _, rfl, hnonneg, ?_⟩
      rwa [reach_cons, reach_zero, add_zero]
    · have hrest := (List.forall_mem_cons.mp hweights).2
      obtain ⟨i, hi, hkey, hle, hbelow⟩ :=
        ih hrest (sub_nonneg.mpr (not_lt.mp hcovered)) (sub_lt_iff_lt_add'.mpr hlt)
      refine ⟨i + 1, Nat.succ_lt_succ hi, hkey, ?_, ?_⟩
      · rw [reach_cons]
        exact le_sub_iff_add_le'.mp hle
      · rw [reach_cons]
        exact sub_lt_iff_lt_add'.mp hbelow

/-- The intervals of different positions have no target in common. -/
theorem reach_disjoint (hweights : ∀ entry ∈ weighted, 0 ≤ entry.2)
    (hi : reach weighted i ≤ target ∧ target < reach weighted (i + 1))
    (hj : reach weighted j ≤ target ∧ target < reach weighted (j + 1)) : i = j := by
  have hordered : ∀ {k l : Nat}, target < reach weighted (k + 1) → reach weighted l ≤ target →
      l ≤ k := by
    intro k l hk hl
    by_contra hlt
    have hmono := reach_mono (i := k + 1) (j := l) hweights (by omega)
    exact absurd (hk.trans_le (hmono.trans hl)) (lt_irrefl _)
  exact le_antisymm (hordered hj.2 hi.1) (hordered hi.2 hj.1)

theorem setOf_locate (hkeys : (weighted.map Prod.fst).Nodup)
    (hweights : ∀ entry ∈ weighted, 0 ≤ entry.2) (h : i < weighted.length) :
    {target | 0 ≤ target ∧ target < (weighted.map Prod.snd).sum ∧
      locate target weighted = some weighted[i].1} =
        Set.Ico (reach weighted i) (reach weighted (i + 1)) := by
  ext target
  constructor
  · rintro ⟨hnonneg, hlt, hlocate⟩
    obtain ⟨j, hj, hkey, hbetween⟩ := exists_covering hweights hnonneg hlt
    rw [locate_of_covering hkey, Option.some.injEq] at hlocate
    -- one key at two positions would be a duplicate
    have hsame : j = i := by
      apply (List.getElem?_inj _ hkeys).mp
      · simp [hj, h, hlocate]
      · rwa [List.length_map]
    exact hsame ▸ hbetween
  · intro hbetween
    have hnonneg := (reach_nonneg hweights).trans hbetween.1
    have hlt : target < (weighted.map Prod.snd).sum := by
      rw [← reach_length]
      exact hbetween.2.trans_le (reach_mono hweights h)
    obtain ⟨j, hj, hkey, hother⟩ := exists_covering hweights hnonneg hlt
    obtain rfl := reach_disjoint hweights hbetween hother
    exact ⟨hnonneg, hlt, locate_of_covering hkey⟩

end

/-! ## The highest score -/

/-- Some finite score is at least every other that is a number. -/
def HasMaximum {κ : Type} (pool : List (κ × Float)) : Prop :=
  ∃ entry ∈ pool, entry.2.isFinite ∧ ∀ other ∈ pool, other.2.isNaN ∨ other.2 ≤ entry.2

section
variable {x : Float}

theorem larger_bounds (hx : magnitude x ≤ infiniteMagnitude) (y : Float) :
    magnitude (larger x y) ≤ infiniteMagnitude ∧ x ≤ larger x y ∧ (y.isNaN ∨ y ≤ larger x y) := by
  rcases le_or_gt (magnitude y) infiniteMagnitude with hy | hnan
  · obtain ⟨hnumber, hweight⟩ := Interval.larger_number hx hy
    refine ⟨hnumber, le_iff.mpr ⟨hx, hnumber, ?_⟩, .inr (le_iff.mpr ⟨hy, hnumber, ?_⟩)⟩
    · exact (le_max_left _ _).trans_eq hweight.symm
    · exact (le_max_right _ _).trans_eq hweight.symm
  · have hnan := isNaN_iff.mpr hnan
    have hkept : larger x y = x := by
      unfold larger
      rw [hnan, Bool.true_or, if_pos rfl]
    rw [hkept]
    exact ⟨hx, le_iff.mpr ⟨hx, hx, le_rfl⟩, .inl hnan⟩

/-- The fold starts from a number and stays one, as a NaN gives way to it. -/
theorem foldl_larger_spec (hx : magnitude x ≤ infiniteMagnitude) (xs : List Float) :
    x ≤ xs.foldl larger x ∧ (∀ y ∈ xs, y.isNaN ∨ y ≤ xs.foldl larger x) ∧
      (xs.foldl larger x = x ∨ xs.foldl larger x ∈ xs) := by
  induction xs generalizing x with
  | nil => exact ⟨le_iff.mpr ⟨hx, hx, le_rfl⟩, by simp, .inl rfl⟩
  | cons y xs ih =>
    obtain ⟨hnumber, hfirst, hsecond⟩ := larger_bounds hx y
    obtain ⟨hle, hall, hmem⟩ := ih hnumber
    rw [List.foldl_cons]
    refine ⟨le_trans hfirst hle, ?_, ?_⟩
    · exact List.forall_mem_cons.mpr ⟨hsecond.imp_right fun h => le_trans h hle, hall⟩
    · rcases hmem with hsame | hmem
      · rw [hsame]
        exact (larger_cases x y).imp_right fun h => List.mem_cons.mpr (.inl h)
      · exact .inr (List.mem_cons_of_mem y hmem)

end

section
variable {κ : Type} {m : Mechanism} {pool : List (κ × Float)}

/-- The highest score bounds all scores that are numbers, and it is one of the scores or the
negative infinity that the fold starts from. -/
theorem highest_spec (pool : List (κ × Float)) :
    (∀ entry ∈ pool, entry.2.isNaN ∨ entry.2 ≤ highest pool) ∧
      (highest pool = infinity true ∨ ∃ entry ∈ pool, entry.2 = highest pool) := by
  have hinfinity : magnitude (infinity true) ≤ infiniteMagnitude := by decide
  obtain ⟨-, hall, hmem⟩ := foldl_larger_spec hinfinity (pool.map Prod.snd)
  exact ⟨List.forall_mem_map.mp hall, hmem.imp_right List.mem_map.mp⟩

theorem isFinite_highest : (highest pool).isFinite = true ↔ HasMaximum pool := by
  have hinfinite : weight (infinity true) = -infiniteMagnitude := by decide
  obtain ⟨hall, hmem⟩ := highest_spec pool
  constructor
  · intro hfinite
    rcases hmem with hnone | ⟨entry, hentry, hscore⟩
    · have hlt := isFinite_iff.mp hfinite
      rw [hnone, ← natAbs_weight, hinfinite] at hlt
      omega
    · exact ⟨entry, hentry, hscore ▸ hfinite, hscore ▸ hall⟩
  · rintro ⟨entry, hentry, hfinite, hgreatest⟩
    have hlt := isFinite_iff.mp hfinite
    have hle : entry.2 ≤ highest pool := by
      refine (hall entry hentry).resolve_left ?_
      rw [isNaN_iff]
      exact hlt.asymm
    -- so it is not the infinity that the fold starts from
    have hweights := (le_iff.mp hle).2
    rw [← natAbs_weight] at hlt
    apply isFinite_iff.mpr
    rw [← natAbs_weight]
    rcases hmem with hnone | ⟨other, hother, hscore⟩
    · rw [hnone, hinfinite] at hweights
      omega
    · rcases hgreatest other hother with hnan | hge
      · rw [hscore, isNaN_iff] at hnan
        omega
      · rw [hscore] at hge
        have hback := (le_iff.mp hge).2.2
        omega

theorem select_of_maximum (h : HasMaximum pool) : m.select pool =
    (locate (RandomSource.unit (m.source.words m.source.taken) *
      Binary64.sum ((weights m.epsilon pool).map Prod.snd)) (weights m.epsilon pool),
      { m with source := { m.source with taken := m.source.taken + 1 } }) := by
  unfold select
  rw [if_pos (isFinite_highest.mpr h)]
  rfl

theorem select_of_none (h : ¬HasMaximum pool) : m.select pool = (none, m) := by
  unfold select
  rw [if_neg (mt isFinite_highest.mp h)]

theorem select_eq_none_iff : (m.select pool).1 = none ↔ ¬HasMaximum pool := by
  constructor
  · intro hnone hmaximum
    rw [select_of_maximum hmaximum] at hnone
    obtain ⟨entry, hentry, -⟩ := hmaximum
    refine Option.isSome_iff_ne_none.mp ?_ hnone
    exact locate_isSome (weights_ne_nil (List.ne_nil_of_mem hentry))
  · intro h
    rw [select_of_none h]

end

/-! ## Draws -/

/-- With exact weights and targets the key of a position is located, without the fallback, exactly
for the targets in an interval as long as its weight, so one of weight zero is never. A draw scans
the weights of the candidates in their order for one word from the source if some finite score is
the highest, as it is if all scores are finite. Else it returns nothing and takes no word. -/
theorem select_by_weight {κ : Type} :
    (∀ weighted : List (κ × ℚ), (weighted.map Prod.fst).Nodup →
      (∀ entry ∈ weighted, 0 ≤ entry.2) →
      (∀ target, 0 ≤ target → target < (weighted.map Prod.snd).sum →
        ∃ i, ∃ h : i < weighted.length, locate target weighted = some weighted[i].1 ∧
          covering target weighted = some weighted[i].1 ∧
          reach weighted i ≤ target ∧ target < reach weighted (i + 1)) ∧
      ∀ i, ∀ h : i < weighted.length,
        {target | 0 ≤ target ∧ target < (weighted.map Prod.snd).sum ∧
          locate target weighted = some weighted[i].1} =
            Set.Ico (reach weighted i) (reach weighted (i + 1)) ∧
        reach weighted (i + 1) - reach weighted i = weighted[i].2 ∧
        (weighted[i].2 = 0 → ∀ target, 0 ≤ target → target < (weighted.map Prod.snd).sum →
          locate target weighted ≠ some weighted[i].1)) ∧
    ∀ (m : Mechanism) (pool : List (κ × Float)),
      ((m.select pool).1 = none ↔ ¬HasMaximum pool) ∧
      (HasMaximum pool → m.select pool =
        (locate (RandomSource.unit (m.source.words m.source.taken) *
          Binary64.sum ((weights m.epsilon pool).map Prod.snd)) (weights m.epsilon pool),
          { m with source := { m.source with taken := m.source.taken + 1 } })) ∧
      (¬HasMaximum pool → m.select pool = (none, m)) ∧
      (weights m.epsilon pool).map Prod.fst = pool.map Prod.fst ∧
      (pool ≠ [] → (∀ entry ∈ pool, entry.2.isFinite) → HasMaximum pool) := by
  constructor
  · intro weighted hkeys hweights
    refine ⟨?_, ?_⟩
    · intro target hnonneg hlt
      obtain ⟨i, hi, hkey, hbetween⟩ := exists_covering hweights hnonneg hlt
      exact ⟨i, hi, locate_of_covering hkey, hkey, hbetween⟩
    · intro i hi
      have hset := setOf_locate hkeys hweights hi
      have hlength : reach weighted (i + 1) - reach weighted i = weighted[i].2 :=
        sub_eq_of_eq_add' (reach_succ hi)
      refine ⟨hset, hlength, ?_⟩
      intro hzero target hnonneg hlt hlocate
      have hempty : target ∈ Set.Ico (reach weighted i) (reach weighted (i + 1)) :=
        hset ▸ ⟨hnonneg, hlt, hlocate⟩
      rw [hzero, sub_eq_zero] at hlength
      exact absurd (hempty.1.trans_lt hempty.2) (hlength ▸ lt_irrefl _)
  · intro m pool
    refine ⟨select_eq_none_iff, select_of_maximum, select_of_none, map_fst_weights _ _, ?_⟩
    intro hne hfinite
    apply isFinite_highest.mp
    apply isFinite_iff.mpr
    exact highest_lt hne fun entry hentry => isFinite_iff.mp (hfinite entry hentry)

/-- Three weights of which one is zero, a NaN next to a finite score, and one next to an infinite
score. -/
theorem select_by_weight_sample :
    let weighted : List (Nat × ℚ) := [(3, 1 / 2), (5, 0), (7, 1 / 4)]
    (∀ target, 0 ≤ target → target < 3 / 4 → locate target weighted ≠ some 5) ∧
      {target | 0 ≤ target ∧ target < 3 / 4 ∧ locate target weighted = some 7} =
        Set.Ico (1 / 2) (3 / 4) ∧
      ∀ m : Mechanism,
        (m.select [((0 : Nat), 0.0 / 0.0), (1, -1.0)]).2.source.taken = m.source.taken + 1 ∧
        m.select [((0 : Nat), 0.0 / 0.0), (1, infinity false)] = (none, m) := by
  obtain ⟨hscan, hdraw⟩ := select_by_weight (κ := Nat)
  obtain ⟨-, hall⟩ := hscan [(3, 1 / 2), (5, 0), (7, 1 / 4)] (by decide) (by norm_num)
  have htotal : ([((3 : Nat), (1 / 2 : ℚ)), (5, 0), (7, 1 / 4)].map Prod.snd).sum = 3 / 4 := by
    norm_num
  have hlow : reach [((3 : Nat), (1 / 2 : ℚ)), (5, 0), (7, 1 / 4)] 2 = 1 / 2 := by
    norm_num [reach]
  have hhigh : reach [((3 : Nat), (1 / 2 : ℚ)), (5, 0), (7, 1 / 4)] (2 + 1) = 3 / 4 := by
    norm_num [reach]
  rw [htotal] at hall
  obtain ⟨-, -, hnever⟩ := hall 1 (by decide)
  obtain ⟨hset, -, -⟩ := hall 2 (by decide)
  rw [hlow, hhigh] at hset
  refine ⟨hnever rfl, hset, ?_⟩
  intro m
  have hmaximum : HasMaximum [((0 : Nat), (0.0 / 0.0 : Float)), (1, -1.0)] :=
    ⟨(1, -1.0), by simp, by decide, by decide⟩
  have hnone : ¬HasMaximum [((0 : Nat), (0.0 / 0.0 : Float)), (1, infinity false)] := by
    rintro ⟨entry, hentry, hfinite, -⟩
    revert entry
    decide
  refine ⟨?_, (hdraw m _).2.2.1 hnone⟩
  rw [(hdraw m _).2.1 hmaximum]

end Mechanism
end Recoding
