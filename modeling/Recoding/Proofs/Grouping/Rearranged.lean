import Recoding.Proofs.Dataset.Rearranged
import Recoding.Proofs.Grouping.Sizes

/-!
# Groupings of rearranged datasets

The classes of a rearranged dataset are those of the original one, in another order and with
other records that stand for them.
-/

namespace Recoding

/-- A class without the record that stands for it and without a verdict. -/
def EquivalenceClass.unrepresented (e : EquivalenceClass) : EquivalenceClass :=
  { e with representative := 0, passed := false }

/-- Two groupings with the same classes, up to their order, their representatives and the verdicts
on them. -/
def Grouping.Permuted (g other : Grouping) : Prop :=
  (g.classes.map EquivalenceClass.unrepresented).Perm
    (other.classes.map EquivalenceClass.unrepresented)

namespace Grouping.Permuted

variable {g other : Grouping} (h : g.Permuted other)
include h

theorem size_eq : g.size = other.size := by
  simpa [Grouping.size] using h.length_eq

theorem symm : other.Permuted g := List.Perm.symm h

omit h in
theorem unjudged_iff : g.unjudged.Permuted other.unjudged ↔ g.Permuted other := by
  have hsame : ∀ g : Grouping, g.unjudged.classes.map EquivalenceClass.unrepresented =
      g.classes.map EquivalenceClass.unrepresented := by
    intro g
    rw [Grouping.unjudged, List.map_map]
    rfl
  unfold Grouping.Permuted
  rw [hsame, hsame]

theorem exists_class {e : EquivalenceClass} (he : e ∈ g.classes) :
    ∃ x ∈ other.classes, x.unrepresented = e.unrepresented := by
  have hmem := h.mem_iff.mp (List.mem_map_of_mem he)
  exact List.mem_map.mp hmem

/-- Whatever is read of the classes but representatives and verdicts is permuted. -/
theorem map {α : Type} (f : EquivalenceClass → α) (hf : ∀ e, f e.unrepresented = f e) :
    (g.classes.map f).Perm (other.classes.map f) := by
  have hmap := List.Perm.map f h
  rw [List.map_map, List.map_map] at hmap
  have hcomp : f ∘ EquivalenceClass.unrepresented = f := funext hf
  rwa [hcomp] at hmap

end Grouping.Permuted

namespace Distribution

theorem joint_perm {parts others : List (Option Distribution)} (hp : AllCanonical parts)
    (h : parts.Perm others) : joint parts = joint others := by
  refine joint_congr hp (fun d hd => hp d (h.mem_iff.mpr hd)) ?_ fun v => (h.map _).sum_eq
  simp only [h.mem_iff]

end Distribution

namespace Dataset

theorem classes_grouping (d : Dataset) (tracks : Bool) (levels : List Nat) :
    (d.grouping tracks levels).classes = (Grouping.keysOf (d.contributions levels)).map
      fun key => d.classOfRows tracks key (d.rowsWith levels key) := by
  rw [grouping, Grouping.ofContributions_classes]
  simp only [withKey_contributions, classOf_contributions]

theorem mem_keysOf {d : Dataset} {levels key : List Nat} :
    key ∈ Grouping.keysOf (d.contributions levels) ↔ ∃ row < d.records, d.key levels row = key := by
  rw [Grouping.mem_keysOf]
  simp [contributions]

section
variable {d : Dataset} (hd : d.WellFormed) {place : Nat → Nat}
  (hp : Rearranges place d.records) (levels : List Nat)
include hd hp

theorem perm_rowsWith (key : List Nat) :
    (((d.rearrange place).rowsWith levels key).map place).Perm (d.rowsWith levels key) := by
  have hrows : (d.rearrange place).rowsWith levels key =
      (List.range d.records).filter ((d.key levels · = key) ∘ place) := by
    refine List.filter_congr fun row hrow => ?_
    rw [key_rearrange hd hp (List.mem_range.mp hrow)]
    rfl
  rw [hrows]
  exact hp.perm_filter _

theorem classOfRows_rearrange (tracks : Bool) (key : List Nat) :
    ((d.rearrange place).classOfRows tracks key
        ((d.rearrange place).rowsWith levels key)).unrepresented =
      (d.classOfRows tracks key (d.rowsWith levels key)).unrepresented := by
  have hperm := perm_rowsWith hd hp levels key
  have hlt : ∀ row ∈ (d.rearrange place).rowsWith levels key, row < d.records :=
    fun row hrow => (mem_rowsWith.mp hrow).1
  have hcount : ((d.rearrange place).rowsWith levels key).countP (d.rearrange place).member =
      (d.rowsWith levels key).countP d.member := by
    rw [← hperm.countP_eq, List.countP_map]
    refine List.countP_congr fun row hrow => ?_
    rw [member_rearrange hd hp (hlt row hrow)]
    rfl
  have hdistributions :
      ((d.rearrange place).rowsWith levels key).map (d.rearrange place).recordDistribution =
        (((d.rearrange place).rowsWith levels key).map place).map d.recordDistribution := by
    rw [List.map_map]
    refine List.map_congr_left fun row hrow => ?_
    rw [Function.comp, recordDistribution, recordDistribution,
      member_rearrange hd hp (hlt row hrow), sensitiveValue_rearrange hd hp (hlt row hrow)]
  have hjoint := Distribution.joint_perm (d.canonical_recordDistributions _)
    (hperm.map d.recordDistribution)
  simp only [classOfRows, EquivalenceClass.unrepresented, hcount, hdistributions, hjoint,
    ← hperm.length_eq, List.length_map]

theorem permuted_grouping (tracks : Bool) :
    ((d.rearrange place).grouping tracks levels).Permuted (d.grouping tracks levels) := by
  have hkeys : (Grouping.keysOf ((d.rearrange place).contributions levels)).Perm
      (Grouping.keysOf (d.contributions levels)) := by
    rw [List.perm_ext_iff_of_nodup (Grouping.nodup_keysOf _) (Grouping.nodup_keysOf _)]
    intro key
    rw [mem_keysOf, mem_keysOf]
    constructor
    · rintro ⟨row, hrow, rfl⟩
      exact ⟨place row, hp.lt hrow, (key_rearrange hd hp hrow levels).symm⟩
    · rintro ⟨row, hrow, rfl⟩
      obtain ⟨r, hr, rfl⟩ := hp.exists_place hrow
      exact ⟨r, hr, key_rearrange hd hp hr levels⟩
  unfold Grouping.Permuted
  rw [classes_grouping, classes_grouping, List.map_map, List.map_map]
  have hsame : EquivalenceClass.unrepresented ∘ (fun key => (d.rearrange place).classOfRows tracks
      key ((d.rearrange place).rowsWith levels key)) = EquivalenceClass.unrepresented ∘
        fun key => d.classOfRows tracks key (d.rowsWith levels key) :=
    funext fun key => classOfRows_rearrange hd hp levels tracks key
  rw [hsame]
  exact hkeys.map _

omit levels in
theorem WellFormed.subsetSize_rearrange (hd' : (d.rearrange place).WellFormed) :
    (d.rearrange place).subsetSize = d.subsetSize := by
  rw [← hd.card_members, ← hd'.card_members, ← sum_counts _ false [], ← sum_counts _ false []]
  exact ((permuted_grouping hd hp [] false).map _ fun _ => rfl).sum_eq

end
end Dataset
end Recoding
