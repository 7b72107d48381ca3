import Recoding.Proofs.Grouping.Rows

/-!
# Class sizes

The classes of a grouping split the research subset. Generalizing further merges classes, so the
sum of their squared sizes, which counts the pairs of records in one class, never decreases.
-/

namespace Recoding.Dataset

def members (d : Dataset) : Finset Nat := (Finset.range d.records).filter (d.member · = true)

def membersWith (d : Dataset) (levels key : List Nat) : Finset Nat :=
  d.members.filter (d.key levels · = key)

section
variable {d : Dataset} {levels : List Nat}

theorem mem_members {row : Nat} : row ∈ d.members ↔ row < d.records ∧ d.member row = true := by
  simp [members]

theorem mem_membersWith {key : List Nat} {row : Nat} :
    row ∈ d.membersWith levels key ↔ row ∈ d.members ∧ d.key levels row = key :=
  Finset.mem_filter

theorem card_membersWith (key : List Nat) :
    (d.rowsWith levels key).countP d.member = (d.membersWith levels key).card := by
  have hrows : (d.membersWith levels key) = ((d.rowsWith levels key).filter d.member).toFinset := by
    ext row
    rw [mem_membersWith, mem_members, List.mem_toFinset, List.mem_filter, mem_rowsWith]
    tauto
  have hnodup : ((d.rowsWith levels key).filter d.member).Nodup :=
    (List.nodup_range.filter _).filter _
  rw [hrows, List.toFinset_card_of_nodup hnodup, List.countP_eq_length_filter]

theorem sum_classes (d : Dataset) (tracks : Bool) (levels : List Nat) (f : Nat → Nat) :
    ((d.grouping tracks levels).classes.map fun e => f e.count).sum =
      ∑ key ∈ (Grouping.keysOf (d.contributions levels)).toFinset,
        f (d.membersWith levels key).card := by
  have hcount : ∀ key, (Grouping.classOf tracks key
      (Grouping.withKey key (d.contributions levels))).count =
        (d.membersWith levels key).card := by
    intro key
    rw [withKey_contributions, classOf_contributions, ← card_membersWith]
    rfl
  rw [List.sum_toFinset _ (Grouping.nodup_keysOf _), grouping, Grouping.ofContributions_classes,
    List.map_map]
  congr 2
  funext key
  exact congrArg f (hcount key)

theorem maps_to_keys : ∀ row ∈ d.members,
    d.key levels row ∈ (Grouping.keysOf (d.contributions levels)).toFinset := by
  intro row hrow
  rw [List.mem_toFinset, Grouping.mem_keysOf]
  exact ⟨d.contribution levels row,
    List.mem_map_of_mem (List.mem_range.mpr (mem_members.mp hrow).1), rfl⟩

theorem sum_counts (d : Dataset) (tracks : Bool) (levels : List Nat) :
    ((d.grouping tracks levels).classes.map (·.count)).sum = d.members.card := by
  rw [Finset.card_eq_sum_card_fiberwise maps_to_keys]
  exact sum_classes d tracks levels id

theorem sum_squares (d : Dataset) (tracks : Bool) (levels : List Nat) :
    ((d.grouping tracks levels).classes.map fun e => e.count * e.count).sum =
      ∑ row ∈ d.members, (d.membersWith levels (d.key levels row)).card := by
  rw [sum_classes d tracks levels fun n => n * n, ← Finset.sum_fiberwise_of_maps_to maps_to_keys]
  refine Finset.sum_congr rfl fun key _ => ?_
  have hfiber : ∀ row ∈ d.membersWith levels key,
      (d.membersWith levels (d.key levels row)).card = (d.membersWith levels key).card := by
    intro row hrow
    rw [(mem_membersWith.mp hrow).2]
  exact (Finset.sum_const_nat hfiber).symm

theorem WellFormed.sum_squares_mono (hd : d.WellFormed) {low high : List Nat}
    (hle : List.Forall₂ (· ≤ ·) low high) (hl : d.Admits high) (tracks : Bool) :
    ((d.grouping tracks low).classes.map fun e => e.count * e.count).sum ≤
      ((d.grouping tracks high).classes.map fun e => e.count * e.count).sum := by
  rw [sum_squares, sum_squares]
  refine Finset.sum_le_sum fun row hrow => Finset.card_le_card fun other hother => ?_
  obtain ⟨hmember, hkey⟩ := mem_membersWith.mp hother
  exact mem_membersWith.mpr ⟨hmember, hd.key_eq_of_le (mem_members.mp hmember).1
    (mem_members.mp hrow).1 hle hl hkey⟩

/-- A record is in one class with itself and at most with all others. -/
theorem sum_squares_bounds (d : Dataset) (tracks : Bool) (levels : List Nat) :
    let squares := ((d.grouping tracks levels).classes.map fun e => e.count * e.count).sum
    d.members.card ≤ squares ∧ squares ≤ d.members.card * d.members.card := by
  dsimp only
  rw [sum_squares]
  constructor
  · rw [Finset.card_eq_sum_ones]
    refine Finset.sum_le_sum fun row hrow => Finset.card_pos.mpr ⟨row, ?_⟩
    exact mem_membersWith.mpr ⟨hrow, rfl⟩
  · rw [← smul_eq_mul, ← Finset.sum_const]
    exact Finset.sum_le_sum fun row _ => Finset.card_le_card (Finset.filter_subset _ _)

theorem WellFormed.card_members (hd : d.WellFormed) : d.members.card = d.subsetSize := by
  have hmembers : d.members = ((List.range d.records).filter d.member).toFinset := by
    ext row
    rw [mem_members, List.mem_toFinset, List.mem_filter, List.mem_range]
  rw [hmembers, List.toFinset_card_of_nodup (List.nodup_range.filter _)]
  unfold subsetSize member inSubset?
  cases hs : d.subset with
  | none => simp [records]
  | some members =>
    have hsize := hd.subset_size members (by simp [hs])
    have hlist : members.toList =
        (List.range d.records).map fun row => (members[row]?).getD false := by
      refine List.ext_getElem (by simp [hsize]) fun row hrow _ => ?_
      simp only [List.getElem_map, List.getElem_range, Array.getElem_toList]
      rw [Array.getElem?_eq_getElem, Option.getD_some]
    show _ = members.toList.count true
    rw [hlist, List.count_eq_countP, List.countP_map, List.countP_eq_length_filter]
    exact congrArg List.length (List.filter_congr fun row _ => by simp)

end

end Recoding.Dataset
