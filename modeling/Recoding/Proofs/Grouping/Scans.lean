import Recoding.Proofs.Dataset.Keys
import Recoding.Proofs.Grouping.Regroup

/-!
# Scans of a dataset

The grouping of a dataset at given levels is what one pass over all records yields. A scan
in parts yields the same grouping, and so does a scan over the classes of a less
generalized grouping.
-/

namespace Recoding

namespace EquivalenceClass

/-- The class without the verdict of an analysis. -/
def unjudged (e : EquivalenceClass) : EquivalenceClass := { e with passed := false }

end EquivalenceClass

namespace Grouping

def unjudged (g : Grouping) : Grouping := ⟨g.tracks, g.classes.map EquivalenceClass.unjudged⟩

theorem unjudged_ofContributions (tracks : Bool) (cs : List Contribution) :
    (ofContributions tracks cs).unjudged = ofContributions tracks cs := by
  rw [ofContributions_classes, unjudged, List.map_map]
  rfl

@[simp] theorem tracks_ofContributions (tracks : Bool) (cs : List Contribution) :
    (ofContributions tracks cs).tracks = tracks := by
  rw [ofContributions_classes]

theorem addAll_ofContributions (tracks : Bool) (cs ds : List Contribution) :
    (ofContributions tracks cs).addAll ds = ofContributions tracks (cs ++ ds) := by
  simp [ofContributions, addAll]

theorem merge_ofContributions {cs ds : List Contribution} (hc : Canonical cs)
    (hd : Canonical ds) (tracks : Bool) :
    (ofContributions tracks cs).merge (ofContributions tracks ds) =
      ofContributions tracks (cs ++ ds) := by
  have hown : ds.map (rekey id) = ds := List.map_id ds
  rw [merge, addAll_ofContributions]
  conv_rhs => rw [← hown]
  exact ofContributions_regrouped hc hd tracks id

theorem foldl_merge_ofContributions (parts : List (List Contribution))
    (hp : ∀ part ∈ parts, Canonical part) {cs : List Contribution} (hc : Canonical cs)
    (tracks : Bool) :
    (parts.map (ofContributions tracks)).foldl merge (ofContributions tracks cs) =
      ofContributions tracks (cs ++ parts.flatten) := by
  induction parts generalizing cs with
  | nil => simp
  | cons part parts ih =>
    have hpart := hp part List.mem_cons_self
    rw [List.map_cons, List.foldl_cons, merge_ofContributions hc hpart,
      ih (fun q hq => hp q (List.mem_cons_of_mem _ hq)) (hc.append hpart),
      List.flatten_cons, List.append_assoc]

end Grouping

namespace Dataset

def contributions (d : Dataset) (levels : List Nat) : List Contribution :=
  (List.range d.records).map (d.contribution levels)

def grouping (d : Dataset) (tracks : Bool) (levels : List Nat) : Grouping :=
  .ofContributions tracks (d.contributions levels)

theorem canonical_contributions (d : Dataset) (levels rows : List Nat) :
    Grouping.Canonical (rows.map (d.contribution levels)) := by
  intro e he
  simp only [List.map_map, List.mem_map, Function.comp_apply, contribution,
    Contribution.ofRecord, Option.map_eq_some_iff] at he
  obtain ⟨row, -, value, -, rfl⟩ := he
  exact Distribution.canonical_empty.add _ _

theorem part_eq (d : Dataset) (parts index : Nat) :
    d.part parts index =
      (List.range' (index * ((d.records + parts - 1) / parts))
        ((d.records + parts - 1) / parts)).filter (· < d.records) := by
  rw [part, List.range'_eq_map_range, List.filter_map, ← List.filterMap_eq_map,
    List.filterMap_filter]
  refine List.filterMap_congr fun offset _ => ?_
  by_cases h : index * ((d.records + parts - 1) / parts) + offset < d.records <;> simp [h]

theorem flatMap_range' (length parts : Nat) :
    (List.range parts).flatMap (fun index => List.range' (index * length) length) =
      List.range (parts * length) := by
  induction parts with
  | zero => simp
  | succ parts ih =>
    rw [List.range_succ, List.flatMap_append, ih, List.flatMap_singleton, Nat.succ_mul,
      List.range_add, List.range'_eq_map_range]

theorem filter_lt_range {n m : Nat} (h : n ≤ m) :
    (List.range m).filter (· < n) = List.range n := by
  obtain ⟨k, rfl⟩ := Nat.exists_eq_add_of_le h
  rw [List.range_add, List.filter_append, List.filter_eq_self.mpr, List.filter_eq_nil_iff.mpr]
  · simp
  · simp
  · simp

theorem flatMap_part (d : Dataset) {parts : Nat} (hparts : 0 < parts) :
    (List.range parts).flatMap (d.part parts) = List.range d.records := by
  have hcover : d.records ≤ parts * ((d.records + parts - 1) / parts) := by
    have hdiv := Nat.lt_mul_div_succ (d.records + parts - 1) hparts
    rw [Nat.mul_succ] at hdiv
    omega
  have hpart : d.part parts = fun index =>
      (List.range' (index * ((d.records + parts - 1) / parts))
        ((d.records + parts - 1) / parts)).filter (· < d.records) :=
    funext (d.part_eq parts)
  rw [hpart, ← List.filter_flatMap, flatMap_range', filter_lt_range hcover]

section
variable {d : Dataset} (hd : d.WellFormed) {levels : List Nat} (hl : d.Admits levels)
include hd hl

theorem WellFormed.groupRecords_eq {rows : List Nat} (hrows : ∀ row ∈ rows, row < d.records)
    (tracks : Bool) : d.groupRecords? levels tracks rows =
      some (.ofContributions tracks (rows.map (d.contribution levels))) := by
  rw [groupRecords?, mapM_eq_some_map fun row hrow =>
    hd.recordContribution_eq (hrows row hrow) hl]
  rfl

theorem WellFormed.groupInParts_eq (tracks : Bool) {parts : Nat} (hparts : 0 < parts) :
    d.groupInParts? levels tracks parts = some (d.grouping tracks levels) := by
  have hrows : ∀ index ∈ List.range parts, ∀ row ∈ d.part parts index, row < d.records := by
    intro index hindex row hrow
    have hmem : row ∈ (List.range parts).flatMap (d.part parts) :=
      List.mem_flatMap.mpr ⟨index, hindex, hrow⟩
    rwa [d.flatMap_part hparts, List.mem_range] at hmem
  rw [groupInParts?, mapM_eq_some_map fun index hindex =>
    hd.groupRecords_eq hl (hrows index hindex) tracks]
  obtain ⟨n, rfl⟩ := Nat.exists_eq_succ_of_ne_zero hparts.ne'
  let part (index : Nat) : List Contribution :=
    (d.part (n + 1) index).map (d.contribution levels)
  have hflat : part 0 ++ ((List.range n).map fun i => part (i + 1)).flatten =
      d.contributions levels := by
    rw [contributions, ← d.flatMap_part hparts, List.map_flatMap, List.range_succ_eq_map,
      List.flatMap_cons, List.flatMap_map]
    rfl
  have hcanonical : Grouping.Canonical (part 0) := d.canonical_contributions levels _
  have hmerge := Grouping.foldl_merge_ofContributions ((List.range n).map fun i => part (i + 1))
    (fun p hp => by
      obtain ⟨i, -, rfl⟩ := List.mem_map.mp hp
      exact d.canonical_contributions levels _) hcanonical tracks
  rw [hflat] at hmerge
  rw [List.range_succ_eq_map, List.map_cons, grouping, ← hmerge, List.map_map, List.map_map]
  rfl

/-- A scan of all records yields the grouping, in however many parts it is made. -/
theorem WellFormed.group_records (tracks : Bool) (workers minRecords : Nat) :
    d.group? levels .records tracks workers minRecords = some (d.grouping tracks levels) := by
  unfold group?
  dsimp only
  split_ifs with hparts
  · rw [scan?, mapM_eq_some_map fun row hrow =>
      hd.recordContribution_eq (List.mem_range.mp hrow) hl]
    rfl
  · exact hd.groupInParts_eq hl tracks (lt_of_lt_of_le Nat.one_pos (Nat.le_max_left _ _))

end

section
variable {d : Dataset} {tracks : Bool} {levels : List Nat}

theorem exists_row_of_class {e : EquivalenceClass}
    (he : e ∈ (d.grouping tracks levels).classes) :
    e.representative < d.records ∧ e.key = d.key levels e.representative := by
  rw [grouping, Grouping.ofContributions_classes, List.mem_map] at he
  obtain ⟨key, hkey, rfl⟩ := he
  have hne : Grouping.withKey key (d.contributions levels) ≠ [] :=
    fun hnil => Grouping.withKey_eq_nil.mp hnil hkey
  obtain ⟨c, rest, hc⟩ := List.exists_cons_of_ne_nil hne
  have hmem : c ∈ Grouping.withKey key (d.contributions levels) := by rw [hc]; simp
  obtain ⟨hmem, hown⟩ := List.mem_filter.mp hmem
  obtain ⟨row, hrow, rfl⟩ := List.mem_map.mp hmem
  have hrep : (Grouping.classOf tracks key
      (Grouping.withKey key (d.contributions levels))).representative = row := by
    simp [Grouping.classOf, hc]
  rw [hrep]
  exact ⟨List.mem_range.mp hrow, (of_decide_eq_true hown).symm⟩

end

theorem WellFormed.group_classes_eq {d : Dataset} (hd : d.WellFormed) {low high : List Nat}
    (hl : d.Admits high) {g : Grouping} {own : Bool}
    (hg : g.classes.map EquivalenceClass.unjudged = (d.grouping own low).classes)
    (tracks : Bool) (workers minRecords : Nat) :
    d.group? high (.classes g) tracks workers minRecords =
      some (.ofContributions tracks ((d.grouping own low).classes.map fun e =>
        e.contribution (d.key high e.representative))) := by
  have hclass : ∀ e ∈ g.classes, d.classContribution? high e =
      some (e.contribution (d.key high e.representative)) := by
    intro e he
    have hmem : e.unjudged ∈ (d.grouping own low).classes := by
      rw [← hg]
      exact List.mem_map_of_mem he
    have hrow : e.representative < d.records := (exists_row_of_class hmem).1
    rw [classContribution?, hd.generalize_eq hrow hl]
    rfl
  have hall : g.classes.map (fun e => e.contribution (d.key high e.representative)) =
      (d.grouping own low).classes.map fun e =>
        e.contribution (d.key high e.representative) := by
    rw [← hg, List.map_map]
    rfl
  unfold group?
  rw [if_pos rfl, scan?, mapM_eq_some_map hclass, hall, Option.map_some]

section
variable {d : Dataset} (hd : d.WellFormed) {low high : List Nat}
  (hle : List.Forall₂ (· ≤ ·) low high) (hl : d.Admits high)
include hd hle hl

/-- Contributions with the keys of their representatives, taken from the classes of a less
generalized grouping, form the grouping of all records. -/
theorem WellFormed.regroup (tracks : Bool) :
    Grouping.ofContributions tracks ((d.grouping tracks low).classes.map fun e =>
      e.contribution (d.key high e.representative)) = d.grouping tracks high := by
  obtain ⟨coarsen, hcoarsen⟩ := hd.exists_coarsening hle hl
  have hclasses : (d.grouping tracks low).classes.map
      (fun e => e.contribution (d.key high e.representative)) =
      Grouping.regrouped coarsen (d.grouping tracks low).classes := by
    refine List.map_congr_left fun e he => ?_
    obtain ⟨hrow, hkey⟩ := exists_row_of_class he
    rw [hcoarsen _ hrow, hkey]
  have hrecords : (d.contributions low).map (Grouping.rekey coarsen) =
      d.contributions high := by
    rw [contributions, contributions, List.map_map]
    refine List.map_congr_left fun row hrow => ?_
    simp [contribution, Contribution.ofRecord, Grouping.rekey,
      hcoarsen row (List.mem_range.mp hrow)]
  have hcanonical : Grouping.Canonical (d.contributions low) := d.canonical_contributions low _
  have hnone : Grouping.Canonical [] := by
    intro d hd
    cases hd
  have hregroup := Grouping.ofContributions_regrouped hnone hcanonical tracks coarsen
  rw [List.nil_append, List.nil_append, hrecords] at hregroup
  rw [hclasses]
  exact hregroup

theorem WellFormed.group_classes {g : Grouping} {tracks : Bool}
    (hg : g.unjudged = d.grouping tracks low) (workers minRecords : Nat) :
    d.group? high (.classes g) tracks workers minRecords = some (d.grouping tracks high) := by
  rw [hd.group_classes_eq hl (congrArg Grouping.classes hg), hd.regroup hle hl]

end

end Dataset
end Recoding
