import Recoding.Proofs.Dataset.Keys

/-!
# Rearranged datasets

The records of a dataset can be put in any order, with everything that belongs to them: their
values, their places in the research subset, their sensitive values and their aggregated ones.
A rearranged dataset could have been built as well.
-/

namespace Recoding

/-- An order of the first rows: each of them has exactly one place. -/
def Rearranges (place : Nat → Nat) (rows : Nat) : Prop :=
  ((List.range rows).map place).Perm (List.range rows)

namespace Rearranges

variable {place : Nat → Nat} {rows : Nat} (h : Rearranges place rows)
include h

theorem lt {row : Nat} (hr : row < rows) : place row < rows :=
  List.mem_range.mp (h.mem_iff.mp (List.mem_map_of_mem (List.mem_range.mpr hr)))

theorem exists_place {row : Nat} (hr : row < rows) : ∃ r < rows, place r = row := by
  obtain ⟨r, hr, hplace⟩ := List.mem_map.mp (h.mem_iff.mpr (List.mem_range.mpr hr))
  exact ⟨r, List.mem_range.mp hr, hplace⟩

theorem perm_filter (p : Nat → Bool) :
    (((List.range rows).filter (p ∘ place)).map place).Perm ((List.range rows).filter p) := by
  rw [← List.filter_map]
  exact h.filter p

end Rearranges

def rearranged {α : Type} [Inhabited α] (place : Nat → Nat) (entries : Array α) : Array α :=
  Array.ofFn fun row : Fin entries.size => entries.getD (place row) default

theorem size_rearranged {α : Type} [Inhabited α] (place : Nat → Nat) (entries : Array α) :
    (rearranged place entries).size = entries.size := Array.size_ofFn

theorem getElem?_rearranged {α : Type} [Inhabited α] {place : Nat → Nat} {entries : Array α}
    {row : Nat} (hr : row < entries.size) (hp : place row < entries.size) :
    (rearranged place entries)[row]? = entries[place row]? := by
  simp [rearranged, hr, hp, Array.getD]

namespace CodeTable

def rearrange (t : CodeTable) (place : Nat → Nat) : CodeTable :=
  tabulate t.rows t.columns fun row column => (t.get? (place row) column).getD 0

@[simp] theorem rows_rearrange (t : CodeTable) (place : Nat → Nat) :
    (t.rearrange place).rows = t.rows := rfl

@[simp] theorem columns_rearrange (t : CodeTable) (place : Nat → Nat) :
    (t.rearrange place).columns = t.columns := rfl

theorem get?_rearrange {t : CodeTable} {place : Nat → Nat} {row column : Nat}
    (hr : row < t.rows) (hp : place row < t.rows) (hc : column < t.columns) :
    (t.rearrange place).get? row column = t.get? (place row) column := by
  obtain ⟨value, hvalue⟩ := t.exists_cell hp hc
  rw [rearrange, get?_tabulate hr hc, hvalue, Option.getD_some]

theorem rearrange_tabulate {place : Nat → Nat} {rows : Nat} (h : Rearranges place rows)
    (columns : Nat) (entry : Nat → Nat → Nat) : (tabulate rows columns entry).rearrange place =
      tabulate rows columns fun row column => entry (place row) column := by
  refine tabulate_congr fun row hr column hc => ?_
  have hcell : (tabulate rows columns entry).get? (place row) column =
      some (entry (place row) column) := get?_tabulate (h.lt hr) hc
  rw [hcell, Option.getD_some]

theorem column?_rearrange {t : CodeTable} {place : Nat → Nat} (h : Rearranges place t.rows)
    {column : Nat} (hc : column < t.columns) : (t.rearrange place).column? column =
      some ((List.range t.rows).map fun row => (t.get? (place row) column).getD 0) := by
  rw [column?_eq (t := t.rearrange place) hc, rows_rearrange]
  congr 1
  apply List.map_congr_left
  intro row hrow
  have hr := List.mem_range.mp hrow
  rw [get?_rearrange hr (h.lt hr) hc]

end CodeTable

namespace Dataset

def rearrange (d : Dataset) (place : Nat → Nat) : Dataset :=
  { d with
    table := d.table.rearrange place
    sensitive := d.sensitive.map (rearranged place)
    subset := d.subset.map (rearranged place)
    microaggregation := d.microaggregation.map fun m =>
      { m with table := m.table.rearrange place } }

@[simp] theorem records_rearrange (d : Dataset) (place : Nat → Nat) :
    (d.rearrange place).records = d.records := rfl

/-! ## Rearranged datasets are accepted -/

theorem uncovered?_rearrange {table : CodeTable} {place : Nat → Nat}
    (hp : Rearranges place table.rows) {hierarchies : List (Hierarchy × Nat)}
    (hwidth : ∀ p ∈ hierarchies, p.2 < table.columns)
    (h : uncovered? table hierarchies = none) :
    uncovered? (table.rearrange place) hierarchies = none := by
  induction hierarchies with
  | nil => rfl
  | cons first rest ih =>
    obtain ⟨hierarchy, column⟩ := first
    have hcolumn : column < table.columns := hwidth _ List.mem_cons_self
    have hrest := ih fun p hp => hwidth p (List.mem_cons_of_mem _ hp)
    rw [uncovered?, CodeTable.column?_eq hcolumn, Option.getD_some] at h
    rw [uncovered?, CodeTable.column?_rearrange hp hcolumn, Option.getD_some]
    split at h
    · cases h
    · rename_i hfind
      have hnone : ((List.range table.rows).map fun row =>
          (table.get? (place row) column).getD 0).find? (!hierarchy.covers ·) = none := by
        rw [List.find?_eq_none] at hfind ⊢
        intro value hvalue
        obtain ⟨row, hrow, rfl⟩ := List.mem_map.mp hvalue
        apply hfind
        exact List.mem_map.mpr ⟨place row, List.mem_range.mpr (hp.lt (List.mem_range.mp hrow)), rfl⟩
      rw [hnone]
      exact hrest h

theorem ofTable_rearrange {table : CodeTable} {hierarchies : List Hierarchy}
    {bounds : List (Option (Nat × Nat))} {d : Dataset} {place : Nat → Nat}
    (hp : Rearranges place d.records) (h : ofTable table hierarchies bounds = .ok d) :
    ofTable (table.rearrange place) hierarchies bounds = .ok (d.rearrange place) := by
  unfold ofTable at h ⊢
  rw [CodeTable.columns_rearrange]
  split_ifs at h ⊢ with hwidth hbounds
  split at h
  · cases h
  · rename_i hcovered
    cases hranges : hierarchies.zipIdx.mapM fun p => levelRange p.1 (bounds[p.2]?.join) with
    | error failure =>
      rw [hranges] at h
      cases h
    | ok ranges =>
      rw [hranges] at h
      cases h
      rw [uncovered?_rearrange hp ?_ hcovered]
      · rfl
      · intro p hmem
        have hlt := List.snd_lt_of_mem_zipIdx hmem
        exact lt_of_lt_of_eq (by simpa using hlt) (not_not.mp hwidth)

theorem withSensitive_rearrange {d e : Dataset} {values : List Nat} {place : Nat → Nat}
    (h : d.withSensitive values = .ok e) : (d.rearrange place).withSensitive
      (rearranged place values.toArray).toList = .ok (e.rearrange place) := by
  unfold withSensitive at h ⊢
  split_ifs at h with hsize
  cases h
  rw [if_neg (by simpa [size_rearranged, rearrange] using hsize)]
  rfl

theorem withMicroaggregation_rearrange {d e : Dataset} {m : Microaggregation}
    {place : Nat → Nat} (h : d.withMicroaggregation m = .ok e) :
    (d.rearrange place).withMicroaggregation { m with table := m.table.rearrange place } =
      .ok (e.rearrange place) := by
  unfold withMicroaggregation at h ⊢
  split_ifs at h with hrows hfunctions
  cases h
  rw [if_neg (by exact hrows), if_neg (by exact hfunctions)]
  rfl

theorem getElem?_marked (rows : List Nat) (members : Array Bool) (row : Nat) :
    (rows.foldl (·.setIfInBounds · true) members)[row]? =
      members[row]?.map fun member => member || decide (row ∈ rows) := by
  induction rows generalizing members with
  | nil => simp
  | cons first rest ih =>
    rw [List.foldl_cons, ih, Array.getElem?_setIfInBounds]
    by_cases heq : first = row
    · subst heq
      by_cases hlt : first < members.size <;> simp [hlt]
    · simp [heq, Ne.symm heq]

theorem withSubset_rearrange {d e : Dataset} {rows : List Nat} {place : Nat → Nat}
    (hp : Rearranges place d.records) (h : d.withSubset rows = .ok e) :
    (d.rearrange place).withSubset ((List.range d.records).filter (place · ∈ rows)) =
      .ok (e.rearrange place) := by
  unfold withSubset at h ⊢
  split at h
  · cases h
  · cases h
    have hnone : ((List.range d.records).filter (place · ∈ rows)).find?
        ((d.rearrange place).table.rows ≤ ·) = none := by
      rw [List.find?_eq_none]
      intro row hrow
      have hlt := List.mem_range.mp (List.mem_of_mem_filter hrow)
      have hnot : ¬(d.rearrange place).table.rows ≤ row := Nat.not_le.mpr hlt
      simpa using hnot
    rw [hnone]
    dsimp only
    have hmembers : ((List.range d.records).filter (place · ∈ rows)).foldl
        (·.setIfInBounds · true) (Array.replicate (d.rearrange place).table.rows false) =
          rearranged place (rows.foldl (·.setIfInBounds · true)
            (Array.replicate d.table.rows false)) := by
      have hsize : (rows.foldl (·.setIfInBounds · true)
          (Array.replicate d.table.rows false)).size = d.table.rows := by
        rw [size_marked, Array.size_replicate]
      refine Array.ext_getElem? fun row => ?_
      rw [getElem?_marked]
      by_cases hrow : row < d.table.rows
      · have hplace : place row < d.table.rows := hp.lt hrow
        rw [getElem?_rearranged (by rwa [hsize]) (by rwa [hsize]), getElem?_marked]
        simp [hrow, hplace, rearrange, records]
      · have hout : (rearranged place (rows.foldl (·.setIfInBounds · true)
            (Array.replicate d.table.rows false)))[row]? = none := by
          rw [Array.getElem?_eq_none_iff, size_rearranged, hsize]
          omega
        rw [hout]
        simp [hrow, rearrange]
    rw [hmembers]
    rfl

/-- A rearranged dataset can be built from its own table, lists and rows. -/
theorem Accepted.rearrange {d : Dataset} (hd : d.Accepted) {place : Nat → Nat}
    (hp : Rearranges place d.records) : (d.rearrange place).Accepted := by
  induction hd with
  | ofTable accepted built => exact .ofTable accepted (ofTable_rearrange hp built)
  | @withSensitive d e values _ built ih =>
    have hrecords : e.records = d.records := by
      unfold Dataset.withSensitive at built
      split_ifs at built
      cases built
      rfl
    exact .withSensitive (ih (hrecords ▸ hp)) (withSensitive_rearrange built)
  | @withSubset d e rows _ built ih =>
    have hrecords : e.records = d.records := by
      unfold Dataset.withSubset at built
      split at built <;> cases built
      rfl
    exact .withSubset (ih (hrecords ▸ hp)) (withSubset_rearrange (hrecords ▸ hp) built)
  | @withMicroaggregation d e m _ built ih =>
    have hrecords : e.records = d.records := by
      unfold Dataset.withMicroaggregation at built
      split_ifs at built
      cases built
      rfl
    exact .withMicroaggregation (ih (hrecords ▸ hp)) (withMicroaggregation_rearrange built)

/-! ## What belongs to a record -/

section
variable {d : Dataset} (hd : d.WellFormed) {place : Nat → Nat}
  (hp : Rearranges place d.records) {row : Nat} (hr : row < d.records)
include hd hp hr

theorem generalize?_rearrange (levels : List Nat) :
    (d.rearrange place).generalize? row levels = d.generalize? (place row) levels := by
  refine generalizeFrom_congr fun i hi => ?_
  have hcolumn : 0 + i < d.table.columns := by
    rw [← hd.width, Nat.zero_add]
    exact hi
  exact CodeTable.get?_rearrange hr (hp.lt hr) hcolumn

theorem key_rearrange (levels : List Nat) :
    (d.rearrange place).key levels row = d.key levels (place row) := by
  rw [key, generalize?_rearrange hd hp hr, key]

theorem member_rearrange : (d.rearrange place).member row = d.member (place row) := by
  have hsubset : (d.rearrange place).subset = d.subset.map (rearranged place) := rfl
  rw [member, member, inSubset?, inSubset?, hsubset]
  cases hs : d.subset with
  | none => rfl
  | some members =>
    have hsize := hd.subset_size members (by simp [hs])
    rw [Option.map_some]
    dsimp only
    rw [getElem?_rearranged (hsize ▸ hr) (hsize ▸ hp.lt hr)]

theorem sensitiveValue_rearrange :
    (d.rearrange place).sensitiveValue row = d.sensitiveValue (place row) := by
  have hsensitive : (d.rearrange place).sensitive = d.sensitive.map (rearranged place) := rfl
  rw [sensitiveValue, sensitiveValue, sensitiveOf?, sensitiveOf?, hsensitive]
  cases hs : d.sensitive with
  | none => rfl
  | some values =>
    have hsize := hd.sensitive_size values (by simp [hs])
    rw [Option.map_some]
    dsimp only
    rw [getElem?_rearranged (hsize ▸ hr) (hsize ▸ hp.lt hr)]

end

end Dataset
end Recoding
