import Recoding.Proofs.Grouping.Rescans
import Recoding.Proofs.Grouping.Sizes
import Recoding.Proofs.Grouping.Tables

/-!
# Tables as partitions

Whatever is added to a table ends up in exactly one class, the one of its key. A scan of all
records adds each of them once, so its classes split the records by their keys.
-/

namespace Recoding

namespace Contribution

/-- What is left of a contribution in a grouping that may not track distributions. -/
def tracked (tracks : Bool) (c : Contribution) : Contribution :=
  if tracks then c else { c with distribution := none }

section
variable (tracks : Bool) (c : Contribution)

@[simp] theorem tracked_key : (c.tracked tracks).key = c.key := by cases tracks <;> rfl

@[simp] theorem tracked_representative :
    (c.tracked tracks).representative = c.representative := by cases tracks <;> rfl

@[simp] theorem tracked_count : (c.tracked tracks).count = c.count := by cases tracks <;> rfl

@[simp] theorem tracked_total : (c.tracked tracks).total = c.total := by cases tracks <;> rfl

end

theorem canonical_ofRecord (key : List Nat) (row : Nat) (inSubset : Bool)
    (sensitive : Option Nat) :
    ∀ d ∈ (ofRecord key row inSubset sensitive).distribution, d.Canonical := by
  intro d hd
  obtain ⟨value, -, rfl⟩ := Option.map_eq_some_iff.mp hd
  exact Distribution.canonical_empty.add _ _

theorem occurrences_ofRecord (key : List Nat) (row : Nat) (inSubset : Bool)
    (sensitive : Option Nat) (v : Nat) :
    Distribution.occurrences (ofRecord key row inSubset sensitive).distribution v =
      if inSubset ∧ sensitive = some v then 1 else 0 := by
  cases sensitive with
  | none => simp [ofRecord, Distribution.occurrences]
  | some value =>
    have hadd := Distribution.canonical_empty.frequency_add value inSubset.toNat v
    simp only [ofRecord, Option.map_some, Distribution.occurrences, Option.getD_some, hadd,
      Distribution.frequency_empty, Nat.zero_add, Option.some.injEq]
    cases inSubset <;> simp [eq_comm]

end Contribution

namespace Grouping

theorem ofContributions_tracked (own : Bool) (cs : List Contribution) :
    ofContributions false (cs.map (·.tracked own)) = ofContributions false cs := by
  have hkeys : keysOf (cs.map (·.tracked own)) = keysOf cs := by
    simp [keysOf, Function.comp_def]
  have hown : ∀ key, withKey key (cs.map (·.tracked own)) =
      (withKey key cs).map (·.tracked own) := by
    intro key
    simp [withKey, List.filter_map, Function.comp_def]
  rw [ofContributions_classes, ofContributions_classes, hkeys]
  congr 1
  apply List.map_congr_left
  intro key _
  simp [hown, classOf, Function.comp_def]

theorem classes_tracked (own : Bool) (cs : List Contribution) :
    (ofContributions own cs).classes =
      (ofContributions true (cs.map (·.tracked own))).classes := by
  cases own with
  | true => simp [Contribution.tracked]
  | false =>
    have hnone : ∀ c ∈ cs.map (·.tracked false), c.distribution = none := by
      simp [Contribution.tracked]
    rw [classes_of_undistributed hnone, ofContributions_tracked]

theorem canonical_tracked {cs : List Contribution} (hc : Canonical cs) (own : Bool) :
    Canonical (cs.map (·.tracked own)) := by
  cases own with
  | true => simpa [Contribution.tracked] using hc
  | false =>
    intro d hd
    simp [Contribution.tracked] at hd

/-- Merging adds what the other grouping was made of, as far as it was tracked. -/
theorem merge_tracked {cs ds : List Contribution} (hc : Canonical cs) (hd : Canonical ds)
    (tracks own : Bool) : (ofContributions tracks cs).merge (ofContributions own ds) =
      ofContributions tracks (cs ++ ds.map (·.tracked own)) := by
  have htracked := merge_ofContributions hc (canonical_tracked hd own) true
  rw [merge, addAll_ofContributions, ← classes_tracked] at htracked
  rw [merge, addAll_ofContributions]
  cases tracks with
  | true => exact htracked
  | false =>
    have hmade : ∀ xs, ofContributions false xs =
        ⟨false, (ofContributions true xs).classes.map EquivalenceClass.undistributed⟩ := by
      intro xs
      rw [classes_undistributed, ofContributions_classes]
    rw [hmade, hmade, htracked]

/-- What a class is made of: it has the representative of the first contribution and the sums
of all, and it has a distribution if one of them has, provided that distributions are
tracked. -/
structure SumsUp (tracks : Bool) (own : List Contribution) (e : EquivalenceClass) : Prop where
  first : own.head?.map (·.representative) = some e.representative
  count : e.count = (own.map (·.count)).sum
  total : e.total = (own.map (·.total)).sum
  distributed : e.distribution.isSome ↔ tracks = true ∧ ∃ c ∈ own, c.distribution.isSome
  occurrences : tracks = true → ∀ v, Distribution.occurrences e.distribution v =
    (own.map fun c => Distribution.occurrences c.distribution v).sum

theorem sumsUp_classOf (tracks : Bool) (key : List Nat) {own : List Contribution}
    (hne : own ≠ []) (hc : Canonical own) : SumsUp tracks own (classOf tracks key own) where
  first := by
    obtain ⟨c, rest, rfl⟩ := List.exists_cons_of_ne_nil hne
    rfl
  count := rfl
  total := rfl
  distributed := by
    cases tracks with
    | false => simp [classOf]
    | true =>
      refine (Distribution.joint_spec hc).1.trans ?_
      simp only [List.mem_map, Option.isSome_iff_exists, true_and]
      constructor
      · rintro ⟨d, c, hown, hd⟩
        exact ⟨c, hown, d, hd⟩
      · rintro ⟨c, hown, d, hd⟩
        exact ⟨d, c, hown, hd⟩
  occurrences ht v := by
    subst ht
    simpa [classOf, Function.comp_def] using (Distribution.joint_spec hc).2.2 v

end Grouping

namespace ClassTable
variable {hash : List Nat → UInt64}

/-- The tables that can be built, with everything that was added to them. -/
inductive Built (hash : List Nat → UInt64) : ClassTable → List Contribution → Prop
  | new (capacity : Nat) (tracks : Bool) : Built hash (ofCapacity capacity tracks) []
  | record {t : ClassTable} {cs : List Contribution} (before : Built hash t cs)
      (key : List Nat) (row : Nat) (inSubset : Bool) (sensitive : Option Nat) :
      Built hash (t.add hash (.ofRecord key row inSubset sensitive))
        (cs ++ [.ofRecord key row inSubset sensitive])
  | whole {t : ClassTable} {cs : List Contribution} (before : Built hash t cs)
      {c : Contribution} (canonical : ∀ d ∈ c.distribution, d.Canonical) :
      Built hash (t.add hash c) (cs ++ [c])
  | merge {t other : ClassTable} {cs ds : List Contribution} (before : Built hash t cs)
      (others : Built hash other ds) :
      Built hash (t.merge hash other) (cs ++ ds.map (·.tracked other.tracks))

/-- A table that is linked and holds the grouping of some contributions. -/
structure Holding (hash : List Nat → UInt64) (t : ClassTable) (cs : List Contribution) :
    Prop where
  linked : t.Linked hash
  canonical : Grouping.Canonical cs
  grouping_eq : t.grouping = Grouping.ofContributions t.tracks cs

theorem grouping_ofCapacity (capacity : Nat) (tracks : Bool) :
    (ofCapacity capacity tracks).grouping = Grouping.empty tracks := by
  rw [grouping, classes, ofCapacity, classesFrom_none]
  rfl

theorem holding_ofCapacity (capacity : Nat) (tracks : Bool) :
    (ofCapacity capacity tracks).Holding hash [] where
  linked := linked_ofCapacity capacity tracks
  canonical d hd := by cases hd
  grouping_eq := grouping_ofCapacity capacity tracks

theorem Holding.add {t : ClassTable} {cs : List Contribution} (h : t.Holding hash cs)
    {c : Contribution} (hc : ∀ d ∈ c.distribution, d.Canonical) :
    (t.add hash c).Holding hash (cs ++ [c]) := by
  obtain ⟨hlinked, hgrouping⟩ := h.linked.add c
  have htracks : (t.add hash c).tracks = t.tracks := congrArg Grouping.tracks hgrouping
  refine ⟨hlinked, h.canonical.append ?_, ?_⟩
  · intro d hd
    exact hc d (by simpa [eq_comm] using hd)
  · rw [hgrouping, h.grouping_eq, htracks, ← Grouping.addAll_ofContributions]
    rfl

theorem Holding.merge {t other : ClassTable} {cs ds : List Contribution}
    (h : t.Holding hash cs) (hother : other.Holding hash ds) :
    (t.merge hash other).Holding hash (cs ++ ds.map (·.tracked other.tracks)) := by
  obtain ⟨hlinked, hgrouping⟩ := h.linked.merge other
  rw [h.grouping_eq, hother.grouping_eq,
    Grouping.merge_tracked h.canonical hother.canonical] at hgrouping
  have htracks : (t.merge hash other).tracks = t.tracks :=
    (congrArg Grouping.tracks hgrouping).trans (Grouping.tracks_ofContributions _ _)
  refine ⟨hlinked, h.canonical.append (Grouping.canonical_tracked hother.canonical _), ?_⟩
  rw [hgrouping, htracks]

theorem Built.holding {t : ClassTable} {cs : List Contribution} (h : t.Built hash cs) :
    t.Holding hash cs := by
  induction h with
  | new capacity tracks => exact holding_ofCapacity capacity tracks
  | record before key row inSubset sensitive ih =>
    exact ih.add (Contribution.canonical_ofRecord key row inSubset sensitive)
  | whole before canonical ih => exact ih.add canonical
  | merge before others ih hothers => exact ih.merge hothers

section
variable {t : ClassTable} {cs : List Contribution}

theorem Holding.classes_eq (h : t.Holding hash cs) : t.classes = (Grouping.keysOf cs).map
    fun key => Grouping.classOf t.tracks key (Grouping.withKey key cs) := by
  have hclasses := congrArg Grouping.classes h.grouping_eq
  rwa [Grouping.ofContributions_classes] at hclasses

theorem Holding.sumsUp (h : t.Holding hash cs) {e : EquivalenceClass} (he : e ∈ t.classes) :
    Grouping.SumsUp t.tracks (Grouping.withKey e.key cs) e := by
  rw [h.classes_eq] at he
  obtain ⟨key, hkey, rfl⟩ := List.mem_map.mp he
  apply Grouping.sumsUp_classOf
  · exact fun hnil => Grouping.withKey_eq_nil.mp hnil hkey
  · exact h.canonical.mono (List.filter_subset_self _)

theorem Holding.keys_eq (h : t.Holding hash cs) :
    t.classes.map (·.key) = Grouping.keysOf cs := by
  rw [h.classes_eq, List.map_map]
  exact List.map_id _

/-- The class of a key is found, and nothing is found for other keys. -/
theorem Holding.find?_eq_some (h : t.Holding hash cs) {key : List Nat} {e : EquivalenceClass} :
    t.find? hash key = some e ↔ e ∈ t.classes ∧ e.key = key := by
  rw [h.linked.find?_eq, Grouping.find?]
  constructor
  · intro hfound
    exact ⟨List.mem_of_find?_eq_some hfound, by simpa using List.find?_some hfound⟩
  · rintro ⟨he, rfl⟩
    apply Grouping.find?_eq_some _ he
    change (t.classes.map (·.key)).Nodup
    rw [h.keys_eq]
    exact Grouping.nodup_keysOf cs

end

/-! ## Scans -/

theorem built_records (d : Dataset) (levels : List Nat) (capacity : Nat) (tracks : Bool)
    (rows : List Nat) :
    (ofContributions hash capacity tracks (rows.map (d.contribution levels))).Built hash
      (rows.map (d.contribution levels)) := by
  induction rows using List.reverseRecOn with
  | nil => exact .new capacity tracks
  | append_singleton rows row ih =>
    rw [List.map_append, List.map_singleton, ofContributions, List.foldl_append]
    exact ih.record _ _ _ _

theorem grouping_ofContributions (capacity : Nat) (tracks : Bool) (cs : List Contribution) :
    (ofContributions hash capacity tracks cs).grouping = Grouping.ofContributions tracks cs := by
  have hempty : (ofCapacity capacity tracks).Linked hash := linked_ofCapacity capacity tracks
  rw [ofContributions, (hempty.addAll cs).2, grouping_ofCapacity]
  rfl

theorem Built.mergeAll {t : ClassTable} {cs : List Contribution} (h : t.Built hash cs)
    {parts : List ClassTable} (hparts : ∀ part ∈ parts, ∃ ds, part.Built hash ds) :
    (∃ ds, (parts.foldl (fun t part => t.merge hash part) t).Built hash ds) ∧
      (parts.foldl (fun t part => t.merge hash part) t).grouping =
        (parts.map grouping).foldl Grouping.merge t.grouping := by
  induction parts generalizing t cs with
  | nil => exact ⟨⟨cs, h⟩, rfl⟩
  | cons part parts ih =>
    obtain ⟨ds, hpart⟩ := hparts part List.mem_cons_self
    have hgrouping := (h.holding.linked.merge part).2
    rw [List.foldl_cons, List.map_cons, List.foldl_cons, ← hgrouping]
    exact ih (h.merge hpart) fun other hother => hparts other (List.mem_cons_of_mem _ hother)

end ClassTable

namespace Dataset

theorem lt_of_mem_part {d : Dataset} {parts index row : Nat} (h : row ∈ d.part parts index) :
    row < d.records := by
  rw [part_eq, List.mem_filter] at h
  exact of_decide_eq_true h.2

theorem partCount_pos (d : Dataset) (workers minRecords : Nat) :
    0 < d.partCount workers minRecords := lt_of_lt_of_le Nat.one_pos (Nat.le_max_left _ _)

def partTable (d : Dataset) (hash : List Nat → UInt64) (levels : List Nat) (tracks : Bool)
    (parts index : Nat) : ClassTable :=
  .ofContributions hash (d.part parts index).length tracks
    ((d.part parts index).map (d.contribution levels))

theorem totalRecords_grouping (d : Dataset) (tracks : Bool) (levels : List Nat) :
    (d.grouping tracks levels).totalRecords = d.records := by
  rw [grouping, Grouping.totalRecords_ofContributions, contributions, List.map_map]
  simp [Function.comp_def, contribution, Contribution.ofRecord]

section
variable {d : Dataset} (hd : d.WellFormed) {levels : List Nat} (hl : d.Admits levels)
  (hash : List Nat → UInt64)
include hd hl

theorem WellFormed.tableOfRecords_eq {rows : List Nat} (hrows : ∀ row ∈ rows, row < d.records)
    (tracks : Bool) : d.tableOfRecords? hash levels tracks rows =
      some (.ofContributions hash rows.length tracks (rows.map (d.contribution levels))) := by
  rw [tableOfRecords?, mapM_eq_some_map fun row hrow =>
    hd.recordContribution_eq (hrows row hrow) hl]
  rfl

theorem WellFormed.tableInParts_eq (tracks : Bool) {parts : Nat} (hparts : 0 < parts) :
    ∃ first rest, List.range parts = first :: rest ∧
      d.tableInParts? hash levels tracks parts = some
        ((rest.map (d.partTable hash levels tracks parts)).foldl
          (fun t part => t.merge hash part) (d.partTable hash levels tracks parts first)) := by
  obtain ⟨first, rest, hrange⟩ := List.exists_cons_of_ne_nil
    (by simpa using hparts.ne' : List.range parts ≠ [])
  have htables : (List.range parts).mapM (fun i =>
      d.tableOfRecords? hash levels tracks (d.part parts i)) =
        some ((List.range parts).map (d.partTable hash levels tracks parts)) :=
    mapM_eq_some_map fun index _ => hd.tableOfRecords_eq hl hash (fun _ => lt_of_mem_part) tracks
  refine ⟨first, rest, hrange, ?_⟩
  rw [tableInParts?, htables, hrange]
  rfl

theorem WellFormed.exists_tableInParts (tracks : Bool) {parts : Nat} (hparts : 0 < parts) :
    ∃ t cs, d.tableInParts? hash levels tracks parts = some t ∧ t.Built hash cs ∧
      d.groupInParts? levels tracks parts = some t.grouping := by
  have hbuilt : ∀ index, (d.partTable hash levels tracks parts index).Built hash
      ((d.part parts index).map (d.contribution levels)) :=
    fun index => ClassTable.built_records d levels _ tracks _
  have hgroupings : (List.range parts).mapM (fun i =>
      d.groupRecords? levels tracks (d.part parts i)) =
        some (((List.range parts).map (d.partTable hash levels tracks parts)).map
          ClassTable.grouping) := by
    rw [List.map_map]
    apply mapM_eq_some_map
    intro index _
    rw [hd.groupRecords_eq hl (fun _ => lt_of_mem_part), Function.comp_apply, partTable,
      ClassTable.grouping_ofContributions]
  obtain ⟨first, rest, hrange, htable⟩ := hd.tableInParts_eq hl hash tracks hparts
  obtain ⟨⟨cs, hmerged⟩, hgrouping⟩ := (hbuilt first).mergeAll (fun part hpart => by
    obtain ⟨index, -, rfl⟩ := List.mem_map.mp hpart
    exact ⟨_, hbuilt index⟩ :
      ∀ part ∈ rest.map (d.partTable hash levels tracks parts), ∃ ds, part.Built hash ds)
  refine ⟨_, cs, htable, hmerged, ?_⟩
  rw [groupInParts?, hgroupings, hgrouping, hrange]
  rfl

theorem WellFormed.table_eq {workers minRecords : Nat} (hone : d.partCount workers minRecords = 1)
    (tracks : Bool) : d.table? hash levels .records tracks workers minRecords =
      some (.ofContributions hash d.records tracks (d.contributions levels)) := by
  have hscan : d.scan? levels .records = some (d.contributions levels) :=
    mapM_eq_some_map fun row hrow => hd.recordContribution_eq (List.mem_range.mp hrow) hl
  rw [table?, if_pos hone, hscan]
  rfl

/-- A scan of all records into tables yields the grouping of the records. -/
theorem WellFormed.exists_table (tracks : Bool) (workers minRecords : Nat) :
    ∃ t cs, d.table? hash levels .records tracks workers minRecords = some t ∧
      t.Built hash cs ∧ t.grouping = d.grouping tracks levels ∧
      d.group? levels .records tracks workers minRecords = some t.grouping := by
  have hgroup := hd.group_records hl tracks workers minRecords
  by_cases hone : d.partCount workers minRecords = 1
  · refine ⟨_, _, hd.table_eq hl hash hone tracks,
      ClassTable.built_records d levels d.records tracks (List.range d.records), ?_, ?_⟩
    · rw [ClassTable.grouping_ofContributions]
      rfl
    · rw [hgroup, ClassTable.grouping_ofContributions]
      rfl
  · obtain ⟨t, cs, htable, hbuilt, hparts⟩ := hd.exists_tableInParts hl hash tracks
      (partCount_pos d workers minRecords)
    have hsplit : d.group? levels .records tracks workers minRecords = some t.grouping := by
      rw [group?, if_neg hone, hparts]
    refine ⟨t, cs, ?_, hbuilt, ?_, hsplit⟩
    · rw [table?, if_neg hone, htable]
    · exact Option.some.inj (hsplit.symm.trans hgroup)

theorem WellFormed.exists_unique_class (tracks : Bool) {row : Nat} (hrow : row < d.records) :
    ∃! e, e ∈ (d.grouping tracks levels).classes ∧
      d.generalize? row levels = some e.key := by
  rw [hd.generalize_eq hrow hl]
  refine ⟨d.classOfRows tracks (d.key levels row) (d.rowsWith levels (d.key levels row)),
    ⟨mem_grouping.mpr ⟨row, hrow, rfl⟩, rfl⟩, ?_⟩
  rintro e ⟨he, hkey⟩
  obtain ⟨other, -, rfl⟩ := mem_grouping.mp he
  have hsame : d.key levels row = d.key levels other := Option.some.inj hkey
  rw [hsame]

theorem WellFormed.total_eq {tracks : Bool} {e : EquivalenceClass}
    (he : e ∈ (d.grouping tracks levels).classes) :
    e.total = (List.range d.records).countP fun row => d.generalize? row levels = some e.key := by
  obtain ⟨row, -, rfl⟩ := mem_grouping.mp he
  rw [classOfRows, rowsWith, ← List.countP_eq_length_filter]
  apply List.countP_congr
  intro other hother
  simp [hd.generalize_eq (List.mem_range.mp hother) hl]

end

end Dataset

end Recoding
