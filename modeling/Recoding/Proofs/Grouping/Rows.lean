import Recoding.Proofs.Grouping.Scans

/-!
# Classes and their records

A class of a grouping consists of the records with its key. It counts those in the research
subset, and its distribution has one entry for each distinct sensitive value among them.
-/

namespace Recoding

namespace Distribution

theorem Canonical.nodup {d : Distribution} (hd : d.Canonical) :
    (d.entries.map Prod.fst).Nodup := by
  rw [List.Nodup, List.pairwise_map]
  exact hd.ascending.imp fun h => h.ne

theorem frequency_pos {d : Distribution} (hd : d.Canonical) {v : Nat} :
    0 < d.frequency v ↔ v ∈ d.entries.map Prod.fst := by
  constructor
  · intro h
    by_contra hv
    have hnone : d.entries.lookup v = none := by
      rw [List.lookup_eq_none_iff]
      intro entry hentry
      have hne : v ≠ entry.1 := fun he => hv (he ▸ List.mem_map_of_mem hentry)
      simpa using hne
    rw [frequency, hnone] at h
    exact absurd h (lt_irrefl 0)
  · intro h
    obtain ⟨entry, hentry, rfl⟩ := List.mem_map.mp h
    rw [hd.frequency_eq hentry]
    exact hd.positive entry hentry

end Distribution

namespace Dataset

/-- The sensitive value of a record in the subset; a value outside it does not count. -/
def recordDistribution (d : Dataset) (row : Nat) : Option Distribution :=
  (d.sensitiveValue row).map fun value => Distribution.empty.add value (d.member row).toNat

def rowsWith (d : Dataset) (levels key : List Nat) : List Nat :=
  (List.range d.records).filter (d.key levels · = key)

def subsetValues (d : Dataset) (rows : List Nat) : List Nat :=
  (rows.filter d.member).filterMap d.sensitiveValue

def classOfRows (d : Dataset) (tracks : Bool) (key rows : List Nat) : EquivalenceClass where
  key := key
  representative := rows.head?.getD 0
  count := rows.countP d.member
  total := rows.length
  distribution := if tracks then Distribution.joint (rows.map d.recordDistribution) else none
  passed := false

theorem classOf_contributions (d : Dataset) (tracks : Bool) (levels key rows : List Nat) :
    Grouping.classOf tracks key (rows.map (d.contribution levels)) =
      d.classOfRows tracks key rows := by
  have hcount : ((rows.map (d.contribution levels)).map (·.count)).sum =
      rows.countP d.member := by
    induction rows with
    | nil => rfl
    | cons row rows ih =>
      rw [List.map_cons, List.map_cons, List.sum_cons, ih, List.countP_cons, Nat.add_comm]
      congr 1
      change (d.member row).toNat = _
      cases d.member row <;> rfl
  have htotal : ((rows.map (d.contribution levels)).map (·.total)).sum = rows.length := by
    have hone : (fun c : Contribution => c.total) ∘ d.contribution levels = fun _ => 1 := rfl
    rw [List.map_map, hone, List.map_const', List.sum_replicate, smul_eq_mul, Nat.mul_one]
  have hdistributions : (rows.map (d.contribution levels)).map (·.distribution) =
      rows.map d.recordDistribution := by
    rw [List.map_map]
    rfl
  have hfirst : (rows.map (d.contribution levels)).head?.map (·.representative) =
      rows.head? := by cases rows <;> rfl
  simp only [Grouping.classOf, hcount, htotal, hdistributions, hfirst, classOfRows]

theorem withKey_contributions (d : Dataset) (levels key : List Nat) :
    Grouping.withKey key (d.contributions levels) =
      (d.rowsWith levels key).map (d.contribution levels) := by
  rw [Grouping.withKey, contributions, List.filter_map]
  rfl

theorem mem_grouping {d : Dataset} {tracks : Bool} {levels : List Nat} {e : EquivalenceClass} :
    e ∈ (d.grouping tracks levels).classes ↔ ∃ row < d.records,
      e = d.classOfRows tracks (d.key levels row) (d.rowsWith levels (d.key levels row)) := by
  rw [grouping, Grouping.ofContributions_classes, List.mem_map]
  constructor
  · rintro ⟨key, hkey, rfl⟩
    obtain ⟨c, hc, rfl⟩ := Grouping.mem_keysOf.mp hkey
    obtain ⟨row, hrow, rfl⟩ := List.mem_map.mp hc
    exact ⟨row, List.mem_range.mp hrow, by
      rw [withKey_contributions, classOf_contributions]
      rfl⟩
  · rintro ⟨row, hrow, rfl⟩
    refine ⟨d.key levels row, Grouping.mem_keysOf.mpr ⟨d.contribution levels row,
      List.mem_map_of_mem (List.mem_range.mpr hrow), rfl⟩, ?_⟩
    rw [withKey_contributions, classOf_contributions]

theorem classes_ne_nil {d : Dataset} (h : 0 < d.records) (tracks : Bool) (levels : List Nat) :
    (d.grouping tracks levels).classes ≠ [] :=
  List.ne_nil_of_mem (mem_grouping.mpr ⟨0, h, rfl⟩)

theorem mem_rowsWith {d : Dataset} {levels key : List Nat} {row : Nat} :
    row ∈ d.rowsWith levels key ↔ row < d.records ∧ d.key levels row = key := by
  simp [rowsWith]

theorem canonical_recordDistributions (d : Dataset) (rows : List Nat) :
    Distribution.AllCanonical (rows.map d.recordDistribution) := by
  intro x hx
  obtain ⟨row, -, hrow⟩ := List.mem_map.mp hx
  obtain ⟨value, -, rfl⟩ := Option.map_eq_some_iff.mp hrow
  exact Distribution.canonical_empty.add _ _

theorem occurrences_record (d : Dataset) (row v : Nat) :
    Distribution.occurrences (d.recordDistribution row) v =
      (d.subsetValues [row]).count v := by
  unfold recordDistribution Distribution.occurrences subsetValues
  cases hvalue : d.sensitiveValue row with
  | none => cases hmember : d.member row <;> simp [hmember, hvalue]
  | some value =>
    simp only [Option.map_some, Option.getD_some, Distribution.canonical_empty.frequency_add,
      Distribution.frequency_empty, Nat.zero_add]
    cases hmember : d.member row with
    | false => simp [hmember]
    | true =>
      by_cases hv : v = value
      · simp [hmember, hvalue, hv]
      · simp [hmember, hvalue, hv, Ne.symm hv]

theorem occurrences_joint (d : Dataset) (rows : List Nat) (v : Nat) :
    Distribution.occurrences (Distribution.joint (rows.map d.recordDistribution)) v =
      (d.subsetValues rows).count v := by
  rw [(Distribution.joint_spec (d.canonical_recordDistributions rows)).2.2 v]
  induction rows with
  | nil => rfl
  | cons row rows ih =>
    rw [List.map_cons, List.map_cons, List.sum_cons, ih, occurrences_record, subsetValues,
      subsetValues, subsetValues, ← List.count_append, ← List.filterMap_append,
      ← List.filter_append]
    rfl

theorem distinct_joint {d : Dataset} {rows : List Nat} {x : Distribution}
    (hx : Distribution.joint (rows.map d.recordDistribution) = some x) :
    x.distinct = (d.subsetValues rows).toFinset.card := by
  have hcanonical : x.Canonical :=
    (Distribution.joint_spec (d.canonical_recordDistributions rows)).2.1 x hx
  have hvalues : (x.entries.map Prod.fst).toFinset = (d.subsetValues rows).toFinset := by
    ext v
    have hv : x.frequency v = (d.subsetValues rows).count v := by
      rw [← occurrences_joint, hx]
      rfl
    rw [List.mem_toFinset, List.mem_toFinset, ← Distribution.frequency_pos hcanonical, hv,
      List.count_pos_iff]
  rw [← hvalues, List.toFinset_card_of_nodup hcanonical.nodup, List.length_map]
  rfl

/-- The records of a class have one key at higher levels, too. -/
theorem WellFormed.rowsWith_sublist {d : Dataset} (hd : d.WellFormed) {low high : List Nat}
    (hle : List.Forall₂ (· ≤ ·) low high) (hl : d.Admits high) {row : Nat}
    (hrow : row < d.records) : (d.rowsWith low (d.key low row)).Sublist
      (d.rowsWith high (d.key high row)) := by
  have hfine : d.rowsWith low (d.key low row) =
      (d.rowsWith high (d.key high row)).filter (d.key low · = d.key low row) := by
    rw [rowsWith, rowsWith, List.filter_filter]
    refine List.filter_congr fun other hother => ?_
    have himp : d.key low other = d.key low row → d.key high other = d.key high row :=
      hd.key_eq_of_le (List.mem_range.mp hother) hrow hle hl
    by_cases he : d.key low other = d.key low row
    · simp [he, himp he]
    · simp [he]
  rw [hfine]
  exact List.filter_sublist

end Dataset
end Recoding
