import Recoding.Grouping.Scan
import Recoding.Proofs.Dataset.Cells
import Recoding.Proofs.Hierarchy.Coherent

/-!
# Accepted datasets

A dataset is built from a table and accepted hierarchies, and optional parts are attached
to it. Every such dataset can be generalized: each record has a key at all levels in range,
and records with equal keys at some levels have equal keys at all higher levels.
-/

namespace Recoding

namespace Dataset

inductive Accepted : Dataset → Prop
  | ofTable {table : CodeTable} {hierarchies : List Hierarchy}
      {bounds : List (Option (Nat × Nat))} {d : Dataset}
      (accepted : ∀ h ∈ hierarchies, h.Accepted)
      (built : Dataset.ofTable table hierarchies bounds = .ok d) : Accepted d
  | withSensitive {d e : Dataset} {values : List Nat} (accepted : Accepted d)
      (built : d.withSensitive values = .ok e) : Accepted e
  | withSubset {d e : Dataset} {rows : List Nat} (accepted : Accepted d)
      (built : d.withSubset rows = .ok e) : Accepted e
  | withMicroaggregation {d e : Dataset} {m : Microaggregation} (accepted : Accepted d)
      (built : d.withMicroaggregation m = .ok e) : Accepted e

def Admits (d : Dataset) (levels : List Nat) : Prop :=
  List.Forall₂ (fun h level => level < h.height) d.hierarchies levels

/-- What the checks of a dataset guarantee. -/
structure WellFormed (d : Dataset) : Prop where
  coherent : ∀ h ∈ d.hierarchies, h.Coherent
  width : d.hierarchies.length = d.table.columns
  covered : ∀ row < d.records, ∀ column h, d.hierarchies[column]? = some h →
    ∃ value, d.table.get? row column = some value ∧ value < h.codes.size
  min_length : d.minLevels.length = d.hierarchies.length
  admits_max : d.Admits d.maxLevels
  sensitive_size : ∀ values ∈ d.sensitive, values.size = d.records
  subset_size : ∀ members ∈ d.subset, members.size = d.records
  aggregated_rows : ∀ m ∈ d.microaggregation,
    m.table.rows = d.records ∧ m.functions.length = m.table.columns

theorem uncovered?_none {table : CodeTable} {hierarchies : List (Hierarchy × Nat)}
    (hn : uncovered? table hierarchies = none) :
    ∀ p ∈ hierarchies, ∀ value ∈ (table.column? p.2).getD [], value < p.1.codes.size := by
  induction hierarchies with
  | nil => simp
  | cons p rest ih =>
    obtain ⟨h, column⟩ := p
    simp only [uncovered?] at hn
    split at hn
    · cases hn
    · rename_i hfind
      intro p hp value hv
      rcases List.mem_cons.mp hp with rfl | hp
      · simpa [Hierarchy.covers] using List.find?_eq_none.mp hfind value hv
      · exact ih hn p hp value hv

theorem levelRange_lt {h : Hierarchy} {bounds : Option (Nat × Nat)} {range : Nat × Nat}
    (hh : 0 < h.height) (hr : levelRange h bounds = .ok range) : range.2 < h.height := by
  have htop : (h.height - 1) % 2 ^ 32 ≤ h.height - 1 := Nat.mod_le _ _
  unfold levelRange at hr
  dsimp only at hr
  split_ifs at hr with hbad
  cases hr
  omega

theorem levelRange_le {h : Hierarchy} {bounds : Option (Nat × Nat)} {range : Nat × Nat}
    (hr : levelRange h bounds = .ok range) : range.1 ≤ range.2 := by
  unfold levelRange at hr
  dsimp only at hr
  split_ifs at hr with hbad
  cases hr
  omega

theorem forall₂_mapM {α β : Type} {f : α → Except Failure β} {xs : List α} {ys : List β}
    (h : xs.mapM f = .ok ys) : List.Forall₂ (fun x y => f x = .ok y) xs ys := by
  induction xs generalizing ys with
  | nil =>
    cases h
    exact List.Forall₂.nil
  | cons x xs ih =>
    rw [List.mapM_cons] at h
    cases hx : f x with
    | error e => rw [hx] at h; cases h
    | ok y =>
      cases hxs : xs.mapM f with
      | error e => rw [hx, hxs] at h; cases h
      | ok rest =>
        rw [hx, hxs] at h
        cases h
        exact List.Forall₂.cons hx (ih hxs)

theorem wellFormed_ofTable {table : CodeTable} {hierarchies : List Hierarchy}
    {bounds : List (Option (Nat × Nat))} {d : Dataset}
    (ha : ∀ h ∈ hierarchies, h.Accepted)
    (hd : Dataset.ofTable table hierarchies bounds = .ok d) : d.WellFormed := by
  have hcoherent : ∀ h ∈ hierarchies, h.Coherent := fun h hh => (ha h hh).coherent
  unfold Dataset.ofTable at hd
  split_ifs at hd with hwidth hbounds
  split at hd
  · cases hd
  rename_i hcovered
  cases hranges : hierarchies.zipIdx.mapM
      (fun p => levelRange p.1 (bounds[p.2]?.join)) with
  | error e => simp only [hranges] at hd; cases hd
  | ok ranges =>
    simp only [hranges] at hd
    cases hd
    have hall := forall₂_mapM hranges
    have hlength : ranges.length = hierarchies.length := by
      simpa using hall.length_eq.symm
    refine ⟨hcoherent, by simpa using hwidth, ?_, by simpa using hlength, ?_, by simp,
      by simp, by simp⟩
    · intro row hrow column h hh
      obtain ⟨hlt, rfl⟩ := List.getElem?_eq_some_iff.mp hh
      have hc : column < table.columns := lt_of_lt_of_eq hlt (by simpa using hwidth)
      obtain ⟨value, hv⟩ := table.exists_cell hrow hc
      have hmem : (hierarchies[column], column) ∈ hierarchies.zipIdx := by
        rw [List.mem_iff_getElem?]
        exact ⟨column, by simp [hlt]⟩
      exact ⟨value, hv, uncovered?_none hcovered _ hmem value (CodeTable.mem_column hrow hc hv)⟩
    · refine List.forall₂_iff_get.mpr ⟨by simp [hlength], ?_⟩
      intro i hi hj
      have hi' : i < hierarchies.length := hi
      have hr := hall.get (i := i) (by simpa using hi') (by simpa using hj)
      simp only [List.get_eq_getElem, List.getElem_zipIdx, List.getElem_map] at hr ⊢
      exact levelRange_lt (hcoherent _ (List.getElem_mem hi')).height_pos hr

theorem size_marked (rows : List Nat) (members : Array Bool) :
    (rows.foldl (·.setIfInBounds · true) members).size = members.size := by
  induction rows generalizing members with
  | nil => rfl
  | cons first rest ih => rw [List.foldl_cons, ih, Array.size_setIfInBounds]

theorem Accepted.wellFormed {d : Dataset} (h : d.Accepted) : d.WellFormed := by
  induction h with
  | ofTable accepted built => exact wellFormed_ofTable accepted built
  | withSensitive _ built ih =>
    unfold Dataset.withSensitive at built
    split_ifs at built with hsize
    cases built
    exact { ih with
      sensitive_size := by
        intro values hv
        obtain rfl := Option.some.inj hv
        simpa [records] using hsize }
  | withSubset _ built ih =>
    unfold Dataset.withSubset at built
    split at built
    · cases built
    · cases built
      refine { ih with subset_size := ?_ }
      intro members hm
      obtain rfl := Option.some.inj hm
      rename_i rows _
      simp [size_marked, records]
  | withMicroaggregation _ built ih =>
    unfold Dataset.withMicroaggregation at built
    split_ifs at built with hrows hfunctions
    cases built
    refine { ih with aggregated_rows := ?_ }
    intro m hm
    obtain rfl := Option.some.inj hm
    exact ⟨by simpa [records] using hrows, by simpa using hfunctions⟩

theorem Accepted.hierarchies {d : Dataset} (hd : d.Accepted) : ∀ h ∈ d.hierarchies, h.Accepted := by
  induction hd with
  | ofTable accepted built =>
    unfold Dataset.ofTable at built
    split_ifs at built
    split at built
    · cases built
    · obtain ⟨ranges, -, built⟩ := bind_eq_ok.mp built
      cases built
      exact accepted
  | withSensitive _ built ih =>
    unfold Dataset.withSensitive at built
    split_ifs at built
    cases built
    exact ih
  | withSubset _ built ih =>
    unfold Dataset.withSubset at built
    split at built
    · cases built
    · cases built
      exact ih
  | withMicroaggregation _ built ih =>
    unfold Dataset.withMicroaggregation at built
    split_ifs at built
    cases built
    exact ih

theorem Accepted.ordered {d : Dataset} (h : d.Accepted) :
    List.Forall₂ (· ≤ ·) d.minLevels d.maxLevels := by
  induction h with
  | @ofTable table hierarchies bounds d accepted built =>
    unfold Dataset.ofTable at built
    split_ifs at built
    split at built
    · cases built
    · obtain ⟨ranges, hranges, built⟩ := bind_eq_ok.mp built
      cases built
      have hall := forall₂_mapM hranges
      rw [List.forall₂_map_left_iff, List.forall₂_map_right_iff, List.forall₂_same]
      intro range hrange
      obtain ⟨i, hi, rfl⟩ := List.getElem_of_mem hrange
      exact levelRange_le (hall.get (hall.length_eq ▸ hi) hi)
  | withSensitive _ built ih =>
    unfold Dataset.withSensitive at built
    split_ifs at built
    cases built
    exact ih
  | withSubset _ built ih =>
    unfold Dataset.withSubset at built
    split at built
    · cases built
    · cases built
      exact ih
  | withMicroaggregation _ built ih =>
    unfold Dataset.withMicroaggregation at built
    split_ifs at built
    cases built
    exact ih

end Dataset
end Recoding
