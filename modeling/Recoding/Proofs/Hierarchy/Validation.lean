import Recoding.Proofs.Hierarchy.Coherent

/-!
# Exact validation

A table is accepted exactly if it has the right shape and no level splits a group of the
level below. The check compares neighbouring levels only and remembers one row for each code,
and yet no level of an accepted hierarchy splits a group of any lower level.
-/

namespace Recoding.Hierarchy

theorem not_splits_iff {table : List (List Nat)} {level : Nat} :
    ¬ Splits table level ↔ ∀ first ∈ table, ∀ second ∈ table,
      first[level]? = second[level]? → first[level + 1]? = second[level + 1]? := by
  simp only [Splits, not_exists, not_and, not_not]

theorem exists_ofTable_iff {name : String} {height : Nat} {table : List (List Nat)} :
    (∃ h, ofTable name height table = .ok h) ↔
      Shaped height table ∧ ∀ level, level + 1 < height → ¬ Splits table level := by
  simp only [ofTable_eq_ok, exists_and_left, exists_eq, and_true]

theorem Shaped.ofTable_eq_error {name : String} {height level : Nat} {table : List (List Nat)}
    (h : Shaped height table) (hl : level + 1 < height) (hs : Splits table level)
    (hlower : ∀ lower < level, ¬ Splits table lower) :
    ofTable name height table = .error (.hierarchySplit name (level + 1)) := by
  rw [h.ofTable_eq, splitLevel?_eq_some.mpr ⟨level, rfl, hl, hs, hlower⟩]

theorem exists_lowest_split {table : List (List Nat)} {level : Nat} (hs : Splits table level) :
    ∃ lowest ≤ level, Splits table lowest ∧ ∀ lower < lowest, ¬ Splits table lower := by
  classical
  have hex : ∃ level, Splits table level := ⟨level, hs⟩
  exact ⟨Nat.find hex, Nat.find_min' hex hs, Nat.find_spec hex, fun _ => Nat.find_min hex⟩

theorem Coherent.mem_codesAt_iff {h : Hierarchy} (hc : h.Coherent) {level code : Nat}
    (hl : level < h.height) :
    code ∈ (h.column level).eraseDups ↔ ∃ value, h.generalize? value level = some code := by
  rw [List.mem_eraseDups, mem_column]
  constructor
  · rintro ⟨value, hvalue, rfl⟩
    exact ⟨value, hc.generalize_eq hvalue hl⟩
  · rintro ⟨value, hcode⟩
    have hvalue : value < h.domainSize := by
      by_contra hge
      simp [generalize?, Array.getElem?_eq_none (not_lt.mp hge)] at hcode
    rw [hc.generalize_eq hvalue hl] at hcode
    exact ⟨value, hvalue, Option.some.inj hcode⟩

/-- A table is accepted if and only if there is a level, every value has a row of that many
codes which starts with the value, and equal codes at a level have equal codes above them. In
an accepted hierarchy every value has a code at every level, equal codes at a level stay equal
at all higher levels, and no level has more distinct codes than a lower one. Of a table that
only splits groups, the lowest level at which one is split is reported. -/
theorem ofTable_exact (name : String) (height : Nat) (table : List (List Nat)) :
    ((∃ h, ofTable name height table = .ok h) ↔
      0 < height ∧ (∀ row ∈ table, row.length = height) ∧
        (∀ (value : Nat) (row : List Nat), table[value]? = some row → row[0]? = some value) ∧
        ∀ level, level + 1 < height → ∀ first ∈ table, ∀ second ∈ table,
          first[level]? = second[level]? → first[level + 1]? = second[level + 1]?) ∧
    (∀ h, ofTable name height table = .ok h →
      h.name = name ∧ h.height = height ∧ h.domainSize = table.length ∧
      (∀ value < h.domainSize, ∀ level < h.height,
        ∃ code, h.generalize? value level = some code) ∧
      ∀ low high, low ≤ high → high < h.height →
        (∀ v < h.domainSize, ∀ w < h.domainSize,
          h.generalize? v low = h.generalize? w low →
            h.generalize? v high = h.generalize? w high) ∧
        ∃ many few, h.codesAt? low = some many ∧ h.codesAt? high = some few ∧
          many.Nodup ∧ (∀ code, code ∈ many ↔ ∃ value, h.generalize? value low = some code) ∧
          few.Nodup ∧ (∀ code, code ∈ few ↔ ∃ value, h.generalize? value high = some code) ∧
          few.length ≤ many.length) ∧
    (Shaped height table → (∃ level, level + 1 < height ∧ Splits table level) →
      ∃ level, level + 1 < height ∧ Splits table level ∧
        (∀ lower < level, ¬ Splits table lower) ∧
        ofTable name height table = .error (.hierarchySplit name (level + 1))) := by
  refine ⟨?_, ?_, ?_⟩
  · rw [exists_ofTable_iff]
    simp only [not_splits_iff]
    constructor
    · rintro ⟨⟨hpos, hlength, hleaf⟩, hmerges⟩
      exact ⟨hpos, hlength, hleaf, hmerges⟩
    · rintro ⟨hpos, hlength, hleaf, hmerges⟩
      exact ⟨⟨hpos, hlength, hleaf⟩, hmerges⟩
  · intro h ht
    have hc : h.Coherent := Accepted.coherent ⟨name, height, table, ht⟩
    obtain ⟨-, -, hrows⟩ := ofTable_eq_ok.mp ht
    refine ⟨by rw [hrows], by rw [hrows], by simp [hrows, domainSize],
      fun value hv level hl => hc.exists_code hv hl, fun low high hle hh => ?_⟩
    have hlow := hle.trans_lt hh
    exact ⟨fun v hv w hw he => hc.code_eq_of_le hv hw hle hh he, _, _, hc.codesAt_eq hlow,
      hc.codesAt_eq hh, nodup_eraseDups _, fun _ => hc.mem_codesAt_iff hlow, nodup_eraseDups _,
      fun _ => hc.mem_codesAt_iff hh, hc.distinct_le hle hh⟩
  · rintro hshape ⟨level, hl, hs⟩
    obtain ⟨lowest, hle, hlowest, hlower⟩ := exists_lowest_split hs
    have hl : lowest + 1 < height := by omega
    exact ⟨lowest, hl, hlowest, hlower, hshape.ofTable_eq_error hl hlowest hlower⟩

/-- Two pairs that merge at level 1 and all values at level 2 make a hierarchy with at most
as many codes at level 2 as at level 1. A pair that is split again at level 2 does not. -/
theorem ofTable_exact_pairs :
    (∃ h many few,
      ofTable "value" 3 [[0, 4, 6], [1, 4, 6], [2, 5, 6], [3, 5, 6]] = .ok h ∧
        h.codesAt? 1 = some many ∧ h.codesAt? 2 = some few ∧ few.length ≤ many.length) ∧
    ∃ level, Splits [[0, 2, 3], [1, 2, 4]] level ∧
      ofTable "value" 3 [[0, 2, 3], [1, 2, 4]] = .error (.hierarchySplit "value" (level + 1)) := by
  constructor
  · obtain ⟨-, -, -, -, hlevels⟩ :=
      (ofTable_exact "value" 3 [[0, 4, 6], [1, 4, 6], [2, 5, 6], [3, 5, 6]]).2.1 _ rfl
    obtain ⟨-, many, few, hmany, hfew, -, -, -, -, hle⟩ := hlevels 1 2 (by decide) (by decide)
    exact ⟨_, many, few, rfl, hmany, hfew, hle⟩
  · have hshape : Shaped 3 [[0, 2, 3], [1, 2, 4]] :=
      (shaped_iff (by decide) _ "value").mpr rfl
    have hsplit : Splits [[0, 2, 3], [1, 2, 4]] 1 :=
      ⟨[0, 2, 3], by decide, [1, 2, 4], by decide, by decide, by decide⟩
    obtain ⟨level, -, hlevel, -, herror⟩ :=
      (ofTable_exact "value" 3 [[0, 2, 3], [1, 2, 4]]).2.2 hshape ⟨1, by decide, hsplit⟩
    exact ⟨level, hlevel, herror⟩

end Recoding.Hierarchy
