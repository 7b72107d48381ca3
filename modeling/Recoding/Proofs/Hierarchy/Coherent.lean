import Recoding.Hierarchy.Basic
import Recoding.Proofs.Outcome
import Recoding.Proofs.Repetitions

/-!
# Accepted hierarchies

A hierarchy that passed its checks has a code for every value at every level, and two
values that share a code at one level share the codes of all higher levels. So grouping by
codes of one level can be computed from a grouping by codes of a lower level.
-/

namespace Recoding.Hierarchy

def Accepted (h : Hierarchy) : Prop :=
  ∃ name height table, ofTable name height table = .ok h

/-- A row of so many codes for every value, from the value itself upwards. -/
structure Shaped (height : Nat) (table : List (List Nat)) : Prop where
  height_pos : 0 < height
  row_length : ∀ row ∈ table, row.length = height
  leaf : ∀ (value : Nat) (row : List Nat), table[value]? = some row → row[0]? = some value

/-- Two values share a code at a level and have different codes above it. -/
def Splits (table : List (List Nat)) (level : Nat) : Prop :=
  ∃ first ∈ table, ∃ second ∈ table,
    first[level]? = second[level]? ∧ first[level + 1]? ≠ second[level + 1]?

/-! ## The checks of a table -/

theorem rowFault?_eq_none {name : String} {height : Nat} {rows : List (List Nat × Nat)} :
    rowFault? name height rows = none ↔
      ∀ row ∈ rows, row.1.length = height ∧ row.1.headD 0 = row.2 := by
  induction rows with
  | nil => simp [rowFault?]
  | cons row rows ih =>
    obtain ⟨codes, value⟩ := row
    rw [rowFault?, List.forall_mem_cons, ← ih]
    by_cases hlength : codes.length = height
    · by_cases hleaf : codes.head?.getD 0 = value <;> simp [hlength, hleaf]
    · simp [hlength]

theorem shaped_iff {height : Nat} (hpos : 0 < height) (table : List (List Nat)) (name : String) :
    Shaped height table ↔ rowFault? name height table.zipIdx = none := by
  have hleaf : ∀ row : List Nat, row.length = height → ∀ value,
      row.headD 0 = value ↔ row[0]? = some value := by
    intro row hlength value
    cases row with
    | nil => exact absurd hlength hpos.ne
    | cons code rest => simp
  rw [rowFault?_eq_none]
  constructor
  · rintro ⟨-, hlength, hown⟩ ⟨row, value⟩ hmem
    have hrow : table[value]? = some row := List.mem_zipIdx_iff_getElem?.mp hmem
    have hlength := hlength row (List.mem_of_getElem? hrow)
    exact ⟨hlength, (hleaf row hlength value).mpr (hown value row hrow)⟩
  · intro h
    refine ⟨hpos, fun row hrow => ?_, fun value row hrow => ?_⟩
    · obtain ⟨value, hvalue⟩ := List.mem_iff_getElem?.mp hrow
      exact (h (row, value) (List.mem_zipIdx_iff_getElem?.mpr hvalue)).1
    · obtain ⟨hlength, hhead⟩ := h (row, value) (List.mem_zipIdx_iff_getElem?.mpr hrow)
      exact (hleaf row hlength value).mp hhead

/-- A scan ends at the first row that disagrees with an earlier one. As long as there is none,
it does not matter which of the rows with a code was seen last. -/
theorem splitsFrom_iff {level : Nat} {above : List (Option Nat × Option Nat)}
    {rows : List (Array Nat)} : splitsFrom level above rows = true ↔
      (∃ row ∈ rows, ∃ seen ∈ above.lookup row[level]?, seen ≠ row[level + 1]?) ∨
        ∃ first ∈ rows, ∃ second ∈ rows,
          first[level]? = second[level]? ∧ first[level + 1]? ≠ second[level + 1]? := by
  induction rows generalizing above with
  | nil => simp [splitsFrom]
  | cons row rows ih =>
    have hlookup : ∀ other : Array Nat,
        ((row[level]?, row[level + 1]?) :: above).lookup other[level]? =
          if other[level]? = row[level]? then some row[level + 1]?
          else above.lookup other[level]? := by
      intro other
      rw [List.lookup_cons]
      split <;> simp_all
    rw [splitsFrom, Bool.or_eq_true, ih]
    simp only [hlookup, Option.any_eq_true, bne_iff_ne, Option.mem_def]
    constructor
    · rintro (⟨seen, hseen, hne⟩ | ⟨other, hother, seen, hseen, hne⟩ |
        ⟨first, hf, second, hs, hsplit⟩)
      · exact Or.inl ⟨row, List.mem_cons_self, seen, hseen, hne⟩
      · split_ifs at hseen with hsame
        · cases hseen
          exact Or.inr ⟨row, List.mem_cons_self, other, List.mem_cons_of_mem _ hother,
            hsame.symm, hne⟩
        · exact Or.inl ⟨other, List.mem_cons_of_mem _ hother, seen, hseen, hne⟩
      · exact Or.inr ⟨first, List.mem_cons_of_mem _ hf, second, List.mem_cons_of_mem _ hs, hsplit⟩
    · -- What disagrees with an old entry that this row hides disagrees with this row, too.
      grind

theorem splitsAbove_iff {table : List (List Nat)} {level : Nat} :
    splitsAbove (table.map List.toArray) level = true ↔ Splits table level := by
  rw [splitsAbove, splitsFrom_iff]
  simp [Splits]

theorem splitLevel?_eq_none {height : Nat} {table : List (List Nat)} :
    splitLevel? height (table.map List.toArray) = none ↔
      ∀ level, level + 1 < height → ¬ Splits table level := by
  simp only [splitLevel?, Option.map_eq_none_iff, List.find?_eq_none, List.mem_range,
    splitsAbove_iff, Nat.lt_sub_iff_add_lt]

theorem splitLevel?_eq_some {height upper : Nat} {table : List (List Nat)} :
    splitLevel? height (table.map List.toArray) = some upper ↔
      ∃ level, level + 1 = upper ∧ upper < height ∧ Splits table level ∧
        ∀ lower < level, ¬ Splits table lower := by
  rw [splitLevel?, Option.map_eq_some_iff]
  refine exists_congr fun level => ?_
  rw [List.find?_range_eq_some]
  simp only [splitsAbove_iff, List.mem_range, Bool.not_eq_true', ← Bool.not_eq_true]
  constructor
  · rintro ⟨⟨hsplit, hlevel, hlower⟩, rfl⟩
    exact ⟨rfl, by omega, hsplit, hlower⟩
  · rintro ⟨rfl, hupper, hsplit, hlower⟩
    exact ⟨⟨hsplit, by omega, hlower⟩, rfl⟩

theorem Shaped.ofTable_eq {height : Nat} {table : List (List Nat)} (h : Shaped height table)
    (name : String) : ofTable name height table =
      match splitLevel? height (table.map List.toArray) with
      | some level => .error (.hierarchySplit name level)
      | none => .ok ⟨name, height, (table.map List.toArray).toArray⟩ := by
  have hrows := (shaped_iff h.height_pos table name).mp h
  cases hsplit : splitLevel? height (table.map List.toArray) <;>
    simp [ofTable, h.height_pos.ne', hrows, hsplit]

theorem shaped_of_ofTable {name : String} {height : Nat} {table : List (List Nat)}
    {h : Hierarchy} (ht : ofTable name height table = .ok h) : Shaped height table := by
  unfold ofTable at ht
  split_ifs at ht with hpos
  rw [shaped_iff (Nat.pos_of_ne_zero hpos) table name]
  cases hrows : rowFault? name height table.zipIdx with
  | none => rfl
  | some fault =>
    rw [hrows] at ht
    cases ht

/-- Exactly the tables of the right shape in which no group is split are accepted. -/
theorem ofTable_eq_ok {name : String} {height : Nat} {table : List (List Nat)} {h : Hierarchy} :
    ofTable name height table = .ok h ↔
      Shaped height table ∧ (∀ level, level + 1 < height → ¬ Splits table level) ∧
        h = ⟨name, height, (table.map List.toArray).toArray⟩ := by
  rw [← splitLevel?_eq_none]
  constructor
  · intro ht
    have hshape := shaped_of_ofTable ht
    rw [hshape.ofTable_eq] at ht
    cases hsplit : splitLevel? height (table.map List.toArray) with
    | some level =>
      rw [hsplit] at ht
      cases ht
    | none =>
      rw [hsplit] at ht
      exact ⟨hshape, rfl, (Except.ok.inj ht).symm⟩
  · rintro ⟨hshape, hsplit, rfl⟩
    rw [hshape.ofTable_eq, hsplit]

/-! ## Coherence -/

/-- What the checks of a table guarantee. -/
structure Coherent (h : Hierarchy) : Prop where
  height_pos : 0 < h.height
  row_size : ∀ row ∈ h.codes, row.size = h.height
  merges : ∀ first ∈ h.codes, ∀ second ∈ h.codes, ∀ level, level + 1 < h.height →
    first[level]? = second[level]? → first[level + 1]? = second[level + 1]?

theorem Accepted.coherent {h : Hierarchy} (ha : h.Accepted) : h.Coherent := by
  obtain ⟨name, height, table, ht⟩ := ha
  obtain ⟨hshape, hsplit, rfl⟩ := ofTable_eq_ok.mp ht
  refine ⟨hshape.height_pos, fun row hrow => ?_, fun first hf second hs level hl he => ?_⟩
  · obtain ⟨codes, hcodes, rfl⟩ := List.mem_map.mp (List.mem_toArray.mp hrow)
    exact hshape.row_length codes hcodes
  · obtain ⟨own, hown, rfl⟩ := List.mem_map.mp (List.mem_toArray.mp hf)
    obtain ⟨other, hother, rfl⟩ := List.mem_map.mp (List.mem_toArray.mp hs)
    by_contra hne
    exact hsplit level hl ⟨own, hown, other, hother, by simpa using he, by simpa using hne⟩

section
variable {h : Hierarchy} (hc : h.Coherent)
include hc

theorem Coherent.exists_code {value level : Nat} (hv : value < h.codes.size)
    (hl : level < h.height) : ∃ code, h.generalize? value level = some code := by
  have hrow := hc.row_size h.codes[value] (Array.getElem_mem hv)
  refine ⟨h.codes[value][level], ?_⟩
  simp [generalize?, hv, hrow, hl]

theorem Coherent.lt_height {value level code : Nat}
    (hcode : h.generalize? value level = some code) : level < h.height := by
  obtain ⟨row, hrow, hlevel⟩ := Option.bind_eq_some_iff.mp hcode
  have hsize := hc.row_size row (Array.mem_of_getElem? hrow)
  exact hsize ▸ (Array.getElem?_eq_some_iff.mp hlevel).1

theorem Coherent.code_succ {v w level : Nat} (hv : v < h.codes.size) (hw : w < h.codes.size)
    (hl : level + 1 < h.height) (he : h.generalize? v level = h.generalize? w level) :
    h.generalize? v (level + 1) = h.generalize? w (level + 1) := by
  have hm := hc.merges h.codes[v] (Array.getElem_mem hv) h.codes[w] (Array.getElem_mem hw)
    level hl
  simp only [generalize?, Array.getElem?_eq_getElem hv, Array.getElem?_eq_getElem hw,
    Option.bind_eq_bind, Option.bind_some] at he ⊢
  exact hm he

/-- Values that share a code share the codes of all higher levels. -/
theorem Coherent.code_eq_of_le {v w low high : Nat} (hv : v < h.codes.size)
    (hw : w < h.codes.size) (hle : low ≤ high) (hh : high < h.height)
    (he : h.generalize? v low = h.generalize? w low) :
    h.generalize? v high = h.generalize? w high := by
  induction high, hle using Nat.le_induction with
  | base => exact he
  | succ level hlevel ih => exact hc.code_succ hv hw hh (ih (by omega))

end

/-! ## Codes of covered values -/

def code (h : Hierarchy) (value level : Nat) : Nat := (h.generalize? value level).getD 0

def column (h : Hierarchy) (level : Nat) : List Nat :=
  (List.range h.domainSize).map (h.code · level)

theorem mem_column {h : Hierarchy} {code level : Nat} :
    code ∈ h.column level ↔ ∃ value < h.domainSize, h.code value level = code := by
  simp only [column, List.mem_map, List.mem_range]

section
variable {h : Hierarchy} (hc : h.Coherent)
include hc

theorem Coherent.generalize_eq {value level : Nat} (hv : value < h.domainSize)
    (hl : level < h.height) : h.generalize? value level = some (h.code value level) := by
  obtain ⟨code, hcode⟩ := hc.exists_code hv hl
  rw [Hierarchy.code, hcode, Option.getD_some]

theorem Coherent.code_eq_of_code_eq {v w low high : Nat} (hv : v < h.domainSize)
    (hw : w < h.domainSize) (hle : low ≤ high) (hh : high < h.height)
    (he : h.code v low = h.code w low) : h.code v high = h.code w high := by
  have hlow := hle.trans_lt hh
  have hsame : h.generalize? v low = h.generalize? w low := by
    rw [hc.generalize_eq hv hlow, hc.generalize_eq hw hlow, he]
  rw [code, code, hc.code_eq_of_le hv hw hle hh hsame]

omit hc in
theorem map_codes (level : Nat) :
    h.codes.toList.map (fun row => (row[level]?).getD 0) = h.column level := by
  refine List.ext_getElem (by simp [column, domainSize]) fun value hrow _ => ?_
  have hvalue : value < h.codes.size := by simpa using hrow
  simp [column, code, generalize?, hvalue]

theorem Coherent.mapM_codes {level : Nat} (hl : level < h.height) :
    h.codes.toList.mapM (fun row => row[level]?) = some (h.column level) := by
  rw [← map_codes]
  refine mapM_eq_some_map fun row hrow => ?_
  have hsize := hc.row_size row (Array.mem_toList_iff.mp hrow)
  simp [hsize, hl]

theorem Coherent.codesAt_eq {level : Nat} (hl : level < h.height) :
    h.codesAt? level = some (h.column level).eraseDups := by
  rw [codesAt?, hc.mapM_codes hl, Option.map_some]

theorem Coherent.distinct_le {low high : Nat} (hle : low ≤ high) (hh : high < h.height) :
    (h.column high).eraseDups.length ≤ (h.column low).eraseDups.length := by
  have hfactor : Function.FactorsThrough (fun value : Fin h.domainSize => h.code value high)
      (fun value : Fin h.domainSize => h.code value low) :=
    fun v w he => hc.code_eq_of_code_eq v.isLt w.isLt hle hh he
  obtain ⟨coarsen, hcoarsen⟩ : ∃ coarsen : Nat → Nat,
      ∀ value < h.domainSize, h.code value high = coarsen (h.code value low) :=
    ⟨_, fun value hv => (hfactor.extend_apply (fun _ => 0) ⟨value, hv⟩).symm⟩
  have hmap : h.column high = (h.column low).map coarsen := by
    rw [column, column, List.map_map]
    exact List.map_congr_left fun value hv => hcoarsen value (List.mem_range.mp hv)
  have himage : (h.column high).toFinset = (h.column low).toFinset.image coarsen := by
    rw [hmap]
    ext code
    simp
  rw [length_eraseDups, length_eraseDups, himage]
  exact Finset.card_image_le

end

end Recoding.Hierarchy
