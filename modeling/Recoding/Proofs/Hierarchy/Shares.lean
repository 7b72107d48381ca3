import Recoding.Proofs.Binary64.Arithmetic
import Recoding.Proofs.Dataset.Keys
import Recoding.Proofs.Hierarchy.Coherent
import Recoding.Proofs.Sample

/-!
# Exact shares

Before it is rounded, the share of a code is a fraction of the values of its attribute. Since
no level splits a group of the level below, the values behind a code are among those behind
the code above it: the shares of a value grow with the level, so does the least share of a
level, and the product of the shares of a record grows with its levels.
-/

namespace Recoding

/-! ## Fractions -/

namespace DomainShare

/-- Some of the values as a fraction of all; an attribute without values counts as one value. -/
def fraction (s : DomainShare) (n : Nat) : ℚ := n / (max s.values 1 : Nat)

def exactShare (s : DomainShare) (code level : Nat) : ℚ :=
  ((s.count? code level).map s.fraction).getD 1

def exactMinShare (s : DomainShare) (level : Nat) : ℚ :=
  ((s.minCount? level).map s.fraction).getD 1

def exactLeafProduct (shares : List DomainShare) : ℚ := (shares.map (·.fraction 1)).prod

def exactMinProduct (shares : List DomainShare) (levels : List Nat) : ℚ :=
  (List.zipWith exactMinShare shares levels).prod

def exactProduct (shares : List DomainShare) (key levels : List Nat) : ℚ :=
  (List.zipWith3 exactShare shares key levels).prod

theorem fraction_mono (s : DomainShare) {m n : Nat} (h : m ≤ n) : s.fraction m ≤ s.fraction n :=
  div_le_div_of_nonneg_right (Nat.cast_le.mpr h) (Nat.cast_nonneg _)

/-! ## Numbers of values -/

theorem lookup_tally (codes : List Nat) (code : Nat) (h : code ∈ codes) :
    (tally codes).lookup code = some (codes.count code) :=
  lookup_map _ (List.mem_eraseDups.mpr h)

theorem min?_tally {codes : List Nat} (h : codes ≠ []) :
    ∃ code ∈ codes, ((tally codes).map Prod.snd).min? = some (codes.count code) ∧
      ∀ other ∈ codes, codes.count code ≤ codes.count other := by
  have hcounts : (tally codes).map Prod.snd = codes.eraseDups.map (codes.count ·) := by
    rw [tally, List.map_map]
    rfl
  rw [hcounts]
  obtain ⟨n, hn⟩ : ∃ n, (codes.eraseDups.map (codes.count ·)).min? = some n := by
    obtain ⟨code, hcode⟩ := List.exists_mem_of_ne_nil codes h
    rw [← Option.isSome_iff_exists, List.isSome_min?_iff]
    exact List.ne_nil_of_mem (List.mem_map_of_mem (List.mem_eraseDups.mpr hcode))
  obtain ⟨hmem, hle⟩ := List.min?_eq_some_iff.mp hn
  obtain ⟨code, hcode, rfl⟩ := List.mem_map.mp hmem
  exact ⟨code, List.mem_eraseDups.mp hcode, hn, fun other hother =>
    hle _ (List.mem_map_of_mem (List.mem_eraseDups.mpr hother))⟩

theorem sum_counts (codes : List Nat) :
    (codes.eraseDups.map (codes.count ·)).sum = codes.length := by
  have hperm : codes.eraseDups.Perm codes.dedup :=
    (List.perm_ext_iff_of_nodup (nodup_eraseDups codes) (List.nodup_dedup codes)).mpr
      fun code => by rw [List.mem_eraseDups, List.mem_dedup]
  rw [(hperm.map _).sum_eq, List.sum_map_count_dedup_eq_length]

end DomainShare

namespace Hierarchy

def leaves (h : Hierarchy) (code level : Nat) : Finset Nat :=
  {value ∈ Finset.range h.domainSize | h.generalize? value level = some code}

theorem mem_leaves {h : Hierarchy} {value code level : Nat} : value ∈ h.leaves code level ↔
    value < h.domainSize ∧ h.generalize? value level = some code := by
  rw [leaves, Finset.mem_filter, Finset.mem_range]

theorem card_leaves_le (h : Hierarchy) (code level : Nat) :
    (h.leaves code level).card ≤ h.domainSize :=
  (Finset.card_filter_le _ _).trans_eq (Finset.card_range _)

section
variable {h : Hierarchy} (hc : h.Coherent)
include hc

theorem Coherent.mem_leaves_iff {value code level : Nat} (hl : level < h.height) :
    value ∈ h.leaves code level ↔ value < h.domainSize ∧ h.code value level = code := by
  rw [mem_leaves]
  refine and_congr_right fun hv => ?_
  rw [hc.generalize_eq hv hl, Option.some.injEq]

theorem Coherent.leaves_subset {value low high : Nat} (hv : value < h.domainSize)
    (hle : low ≤ high) (hh : high < h.height) :
    h.leaves (h.code value low) low ⊆ h.leaves (h.code value high) high := by
  intro other hother
  obtain ⟨ho, hsame⟩ := (hc.mem_leaves_iff (hle.trans_lt hh)).mp hother
  exact (hc.mem_leaves_iff hh).mpr ⟨ho, hc.code_eq_of_code_eq ho hv hle hh hsame⟩

theorem Coherent.count_column {code level : Nat} (hl : level < h.height) :
    (h.column level).count code = (h.leaves code level).card := by
  have hleaves : h.leaves code level =
      (Finset.range h.domainSize).filter fun value => h.code value level = code := by
    ext value
    rw [hc.mem_leaves_iff hl, Finset.mem_filter, Finset.mem_range]
  rw [hleaves, column, List.count, List.countP_map, List.countP_eq_length_filter]
  rfl

theorem Coherent.counts_eq {level : Nat} (hl : level < h.height) :
    (DomainShare.ofHierarchy h).counts[level]? = some (DomainShare.tally (h.column level)) := by
  have hrows : h.codes.toList.filterMap (fun row => row[level]?) = h.column level := by
    rw [← map_codes, ← List.filterMap_eq_map]
    refine List.filterMap_congr fun row hrow => ?_
    have hsize := hc.row_size row (Array.mem_toList_iff.mp hrow)
    simp [hsize, hl]
  simp [DomainShare.ofHierarchy, hl, hrows]

theorem Coherent.share_eq {code level : Nat} (hl : level < h.height)
    (hcode : code ∈ h.column level) : (DomainShare.ofHierarchy h).exactShare code level =
      (DomainShare.ofHierarchy h).fraction (h.leaves code level).card := by
  have hcount : (DomainShare.ofHierarchy h).count? code level =
      some (h.leaves code level).card := by
    rw [DomainShare.count?, hc.counts_eq hl, ← hc.count_column hl]
    exact DomainShare.lookup_tally _ _ hcode
  rw [DomainShare.exactShare, hcount]
  rfl

theorem Coherent.share_mono {value low high : Nat} (hv : value < h.domainSize)
    (hle : low ≤ high) (hh : high < h.height) :
    (DomainShare.ofHierarchy h).exactShare (h.code value low) low ≤
      (DomainShare.ofHierarchy h).exactShare (h.code value high) high := by
  rw [hc.share_eq (hle.trans_lt hh) (mem_column.mpr ⟨value, hv, rfl⟩),
    hc.share_eq hh (mem_column.mpr ⟨value, hv, rfl⟩)]
  exact DomainShare.fraction_mono _ (Finset.card_le_card (hc.leaves_subset hv hle hh))

/-- The smallest share of a level is the share of some value, and no value has a smaller one. -/
theorem Coherent.exists_minShare {level : Nat} (hpos : 0 < h.domainSize) (hl : level < h.height) :
    ∃ value < h.domainSize, (DomainShare.ofHierarchy h).exactMinShare level =
        (DomainShare.ofHierarchy h).exactShare (h.code value level) level ∧
      ∀ other < h.domainSize, (DomainShare.ofHierarchy h).exactMinShare level ≤
        (DomainShare.ofHierarchy h).exactShare (h.code other level) level := by
  have hne : h.column level ≠ [] := List.ne_nil_of_mem (mem_column.mpr ⟨0, hpos, rfl⟩)
  obtain ⟨code, hcode, hmin, hleast⟩ := DomainShare.min?_tally hne
  have hshare : (DomainShare.ofHierarchy h).exactMinShare level =
      (DomainShare.ofHierarchy h).fraction ((h.column level).count code) := by
    rw [DomainShare.exactMinShare, DomainShare.minCount?, hc.counts_eq hl, Option.getD_some, hmin]
    rfl
  obtain ⟨value, hv, rfl⟩ := mem_column.mp hcode
  refine ⟨value, hv, ?_, fun other hother => ?_⟩
  · rw [hshare, hc.share_eq hl hcode, hc.count_column hl]
  · have hmem : h.code other level ∈ h.column level := mem_column.mpr ⟨other, hother, rfl⟩
    rw [hshare, hc.share_eq hl hmem, ← hc.count_column hl]
    exact DomainShare.fraction_mono _ (hleast _ hmem)

theorem Coherent.minShare_le {value level : Nat} (hv : value < h.domainSize)
    (hl : level < h.height) : (DomainShare.ofHierarchy h).exactMinShare level ≤
      (DomainShare.ofHierarchy h).exactShare (h.code value level) level := by
  obtain ⟨_, _, _, hleast⟩ := hc.exists_minShare (Nat.zero_lt_of_lt hv) hl
  exact hleast value hv

/-- The value with the smallest share of a level has no greater one below it. -/
theorem Coherent.minShare_mono {low high : Nat} (hpos : 0 < h.domainSize) (hle : low ≤ high)
    (hh : high < h.height) : (DomainShare.ofHierarchy h).exactMinShare low ≤
      (DomainShare.ofHierarchy h).exactMinShare high := by
  obtain ⟨value, hv, hmin, -⟩ := hc.exists_minShare hpos hh
  calc (DomainShare.ofHierarchy h).exactMinShare low
      ≤ (DomainShare.ofHierarchy h).exactShare (h.code value low) low :=
        hc.minShare_le hv (hle.trans_lt hh)
    _ ≤ (DomainShare.ofHierarchy h).exactShare (h.code value high) high := hc.share_mono hv hle hh
    _ = (DomainShare.ofHierarchy h).exactMinShare high := hmin.symm

theorem Coherent.leafShare_le {value level : Nat} (hv : value < h.domainSize)
    (hl : level < h.height) : (DomainShare.ofHierarchy h).fraction 1 ≤
      (DomainShare.ofHierarchy h).exactShare (h.code value level) level := by
  rw [hc.share_eq hl (mem_column.mpr ⟨value, hv, rfl⟩)]
  refine DomainShare.fraction_mono _ (Finset.card_pos.mpr ⟨value, ?_⟩)
  exact (hc.mem_leaves_iff hl).mpr ⟨hv, rfl⟩

theorem Coherent.leafShare_le_min {level : Nat} (hpos : 0 < h.domainSize)
    (hl : level < h.height) : (DomainShare.ofHierarchy h).fraction 1 ≤
      (DomainShare.ofHierarchy h).exactMinShare level := by
  obtain ⟨value, hv, hmin, -⟩ := hc.exists_minShare hpos hl
  rw [hmin]
  exact hc.leafShare_le hv hl

theorem Coherent.share_le_one {value level : Nat} (hv : value < h.domainSize)
    (hl : level < h.height) :
    (DomainShare.ofHierarchy h).exactShare (h.code value level) level ≤ 1 := by
  rw [hc.share_eq hl (mem_column.mpr ⟨value, hv, rfl⟩), DomainShare.fraction]
  refine div_le_one_of_le₀ (Nat.cast_le.mpr ?_) (Nat.cast_nonneg _)
  exact (card_leaves_le h _ level).trans (le_max_left _ _)

theorem Coherent.sum_shares {level : Nat} (hpos : 0 < h.domainSize) (hl : level < h.height) :
    ((h.column level).eraseDups.map
      fun code => (DomainShare.ofHierarchy h).exactShare code level).sum = 1 := by
  have hsize : max (DomainShare.ofHierarchy h).values 1 = (h.column level).length := by
    rw [column, List.length_map, List.length_range]
    exact max_eq_left hpos
  have hlength : ((h.column level).length : ℚ) ≠ 0 := by
    rw [← hsize]
    positivity
  have hshares : ∀ code ∈ (h.column level).eraseDups,
      (DomainShare.ofHierarchy h).exactShare code level =
        ((h.column level).count code : ℚ) * ((h.column level).length : ℚ)⁻¹ := by
    intro code hcode
    rw [hc.share_eq hl (List.mem_eraseDups.mp hcode), ← hc.count_column hl,
      DomainShare.fraction, hsize, div_eq_mul_inv]
  rw [List.map_congr_left hshares, List.sum_map_mul_right]
  have hsum := congrArg (Nat.cast : Nat → ℚ) (DomainShare.sum_counts (h.column level))
  rw [Nat.cast_list_sum, List.map_map] at hsum
  rw [show ((h.column level).eraseDups.map fun code => ((h.column level).count code : ℚ)).sum =
    (h.column level).length from hsum, mul_inv_cancel₀ hlength]

end

theorem Accepted.code_zero {h : Hierarchy} (ha : h.Accepted) {value : Nat}
    (hv : value < h.domainSize) : h.code value 0 = value := by
  obtain ⟨name, height, table, ht⟩ := ha
  obtain ⟨hshape, -, rfl⟩ := ofTable_eq_ok.mp ht
  have hlt : value < table.length := by simpa [domainSize] using hv
  have hleaf := hshape.leaf value table[value] (List.getElem?_eq_getElem hlt)
  simp [code, generalize?, hlt, hleaf]

theorem Accepted.share_zero {h : Hierarchy} (ha : h.Accepted) {value : Nat}
    (hv : value < h.domainSize) : (DomainShare.ofHierarchy h).exactShare (h.code value 0) 0 =
      (DomainShare.ofHierarchy h).fraction 1 := by
  have hc := ha.coherent
  have hleaves : h.leaves (h.code value 0) 0 = {value} := by
    ext other
    rw [hc.mem_leaves_iff hc.height_pos, Finset.mem_singleton, ha.code_zero hv]
    constructor
    · rintro ⟨ho, hsame⟩
      exact (ha.code_zero ho).symm.trans hsame
    · rintro rfl
      exact ⟨hv, ha.code_zero hv⟩
  rw [hc.share_eq hc.height_pos (mem_column.mpr ⟨value, hv, rfl⟩), hleaves,
    Finset.card_singleton]

end Hierarchy

/-! ## Products -/

namespace DomainShare

theorem factors_eq {shares : List DomainShare} {key levels : List Nat}
    (hkey : key.length = shares.length) (hlevels : levels.length = shares.length) :
    loss?.factors shares key levels = some (List.zipWith3 share shares key levels) := by
  induction shares generalizing key levels with
  | nil => cases key <;> cases levels <;> rfl
  | cons s shares ih =>
    obtain ⟨level, levels, rfl⟩ := List.exists_cons_of_length_eq_add_one hlevels
    obtain ⟨code, key, rfl⟩ := List.exists_cons_of_length_eq_add_one hkey
    rw [loss?.factors, ih (by simpa using hkey) (by simpa using hlevels)]
    rfl

theorem fraction_one_pos (s : DomainShare) : 0 < s.fraction 1 := by
  have hpos : 0 < max s.values 1 := by positivity
  exact div_pos (Nat.cast_pos.mpr one_pos) (Nat.cast_pos.mpr hpos)

/-- Attribute by attribute, generalizing a record further enlarges its product. -/
theorem products_mono {hierarchies : List Hierarchy} {values low high : List Nat}
    (hv : List.Forall₂ (fun h value => h.Coherent ∧ value < h.domainSize) hierarchies values)
    (hle : List.Forall₂ (· ≤ ·) low high)
    (hh : List.Forall₂ (fun h level => level < h.height) hierarchies high) :
    0 < exactLeafProduct (hierarchies.map ofHierarchy) ∧
    exactLeafProduct (hierarchies.map ofHierarchy) ≤
      exactMinProduct (hierarchies.map ofHierarchy) low ∧
    exactMinProduct (hierarchies.map ofHierarchy) low ≤
      exactProduct (hierarchies.map ofHierarchy)
        (List.zipWith3 Hierarchy.code hierarchies values low) low ∧
    exactProduct (hierarchies.map ofHierarchy)
        (List.zipWith3 Hierarchy.code hierarchies values low) low ≤
      exactProduct (hierarchies.map ofHierarchy)
        (List.zipWith3 Hierarchy.code hierarchies values high) high ∧
    exactProduct (hierarchies.map ofHierarchy)
        (List.zipWith3 Hierarchy.code hierarchies values high) high ≤ 1 := by
  induction hv generalizing low high with
  | nil =>
    cases hh
    cases hle
    exact ⟨one_pos, le_rfl, le_rfl, le_rfl, le_rfl⟩
  | @cons h value hierarchies values hfirst hrest ih =>
    obtain ⟨hc, hvalue⟩ := hfirst
    cases hh with
    | @cons _ upper _ high hupper hh =>
    cases hle with
    | @cons lower _ low _ hlevels hle =>
    obtain ⟨hpos, hleaf, hmin, hkey, hone⟩ := ih hle hh
    have hlower := hlevels.trans_lt hupper
    have hmin_pos := hpos.trans_le hleaf
    have hkey_pos := hmin_pos.trans_le hmin
    have hfirst_pos := (ofHierarchy h).fraction_one_pos
    have hfirst_leaf := hc.leafShare_le_min (Nat.zero_lt_of_lt hvalue) hlower
    have hfirst_min := hc.minShare_le hvalue hlower
    have hfirst_key := hc.share_mono hvalue hlevels hupper
    have hfirst_min_pos := hfirst_pos.trans_le hfirst_leaf
    have hfirst_key_pos := hfirst_min_pos.trans_le hfirst_min
    exact ⟨mul_pos hfirst_pos hpos,
      mul_le_mul hfirst_leaf hleaf hpos.le hfirst_min_pos.le,
      mul_le_mul hfirst_min hmin hmin_pos.le hfirst_key_pos.le,
      mul_le_mul hfirst_key hkey hkey_pos.le (hfirst_key_pos.trans_le hfirst_key).le,
      mul_le_one₀ (hc.share_le_one hvalue hupper) (hkey_pos.trans_le hkey).le hone⟩

end DomainShare
end Recoding
