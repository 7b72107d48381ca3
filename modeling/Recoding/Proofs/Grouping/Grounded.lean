import Recoding.Proofs.Grouping.Sizes
import Recoding.Proofs.Grouping.Snapshots

/-!
# Grouping what exists

Whatever a scan visits stands for a record. As long as that record exists, a scan succeeds and
leaves classes that stand for existing records again. This needs no bound on the number of records:
numbers that do not fit into the words of a snapshot come back smaller, so they still denote records
and still count no more of them than there are.
-/

namespace Recoding

/-- Every class has so many codes. -/
def Grouping.Wide (width : Nat) (g : Grouping) : Prop := ∀ e ∈ g.classes, e.key.length = width

/-- Every class stands for one of so many records, and no more of them are counted. -/
structure Grouping.Grounded (records : Nat) (g : Grouping) : Prop where
  representative : ∀ e ∈ g.classes, e.representative < records
  count : g.totalCount ≤ records

/-- A snapshot can be read, and its records are like the classes of such a grouping. -/
def Snapshot.Grounded (records : Nat) (s : Snapshot) : Prop :=
  ∃ kept, s.records? = some kept ∧ (∀ r ∈ kept, r.representative < records) ∧
    (kept.map (·.count)).sum ≤ records

/-- Everything that a scan visits stands for one of so many records. -/
def ScanSource.Grounded (records : Nat) : ScanSource → Prop
  | .records => True
  | .classes g => g.Grounded records
  | .snapshot s _ => s.Grounded records

namespace Grouping

/-- Verdicts change neither the codes of classes nor what they stand for. -/
theorem exists_unjudged {g judged : Grouping} (h : judged.unjudged = g.unjudged)
    {e : EquivalenceClass} (he : e ∈ judged.classes) :
    ∃ own ∈ g.classes, own.unjudged = e.unjudged := by
  have hmem : e.unjudged ∈ g.unjudged.classes := h ▸ List.mem_map_of_mem he
  exact List.mem_map.mp hmem

theorem Wide.unjudged {width : Nat} {g judged : Grouping} (h : g.Wide width)
    (hj : judged.unjudged = g.unjudged) : judged.Wide width := by
  intro e he
  obtain ⟨own, hown, hsame⟩ := exists_unjudged hj he
  show e.unjudged.key.length = width
  rw [← hsame]
  exact h own hown

theorem Grounded.unjudged {records : Nat} {g judged : Grouping} (h : g.Grounded records)
    (hj : judged.unjudged = g.unjudged) : judged.Grounded records := by
  constructor
  · intro e he
    obtain ⟨own, hown, hsame⟩ := exists_unjudged hj he
    show e.unjudged.representative < records
    rw [← hsame]
    exact h.representative own hown
  · have hcount : ∀ g : Grouping, g.totalCount = g.unjudged.totalCount := by
      intro g
      rw [totalCount, totalCount, Grouping.unjudged, List.map_map]
      rfl
    rw [hcount, hj, ← hcount]
    exact h.count

/-- Contributions that stand for existing records form a grouping of existing records. -/
theorem grounded_ofContributions (tracks : Bool) {records width : Nat} {cs : List Contribution}
    (hrep : ∀ c ∈ cs, c.representative < records) (hcount : (cs.map (·.count)).sum ≤ records)
    (hkey : ∀ c ∈ cs, c.key.length = width) :
    (ofContributions tracks cs).Grounded records ∧ (ofContributions tracks cs).Wide width := by
  have hclass : ∀ e ∈ (ofContributions tracks cs).classes,
      ∃ c ∈ cs, e.key = c.key ∧ ∃ first ∈ cs, e.representative = first.representative := by
    intro e he
    rw [ofContributions_classes, List.mem_map] at he
    obtain ⟨key, hkey, rfl⟩ := he
    obtain ⟨c, hc, rfl⟩ := mem_keysOf.mp hkey
    obtain ⟨first, rest, hfirst⟩ := List.exists_cons_of_ne_nil
      (fun hnil => withKey_eq_nil.mp hnil hkey : withKey c.key cs ≠ [])
    have hmem : first ∈ withKey c.key cs := hfirst ▸ List.mem_cons_self
    refine ⟨c, hc, rfl, first, List.mem_of_mem_filter hmem, ?_⟩
    rw [hfirst]
    rfl
  refine ⟨⟨fun e he => ?_, (totalCount_ofContributions tracks cs).trans_le hcount⟩, fun e he => ?_⟩
  · obtain ⟨-, -, -, first, hfirst, hsame⟩ := hclass e he
    rw [hsame]
    exact hrep first hfirst
  · obtain ⟨c, hc, hsame, -⟩ := hclass e he
    rw [hsame]
    exact hkey c hc

end Grouping

/-! ## Snapshots -/

namespace Snapshot

/-- Numbers only get smaller in the words of a snapshot. -/
theorem grounded_recordsOf (tracks : Bool) {records : Nat} (classes : List EquivalenceClass)
    (d : Dictionary) (h : ∀ e ∈ classes, e.representative < records) :
    (∀ r ∈ recordsOf tracks classes d, r.representative < records) ∧
      ((recordsOf tracks classes d).map (·.count)).sum ≤ (classes.map (·.count)).sum := by
  induction classes generalizing d with
  | nil => exact ⟨fun r hr => absurd hr List.not_mem_nil, le_rfl⟩
  | cons e rest ih =>
    obtain ⟨hrep, hcount⟩ := ih (wordsOf tracks e d).2 fun x hx => h x (List.mem_cons_of_mem _ hx)
    constructor
    · intro r hr
      rcases List.mem_cons.mp hr with rfl | hr
      · exact (Nat.mod_le _ _).trans_lt (h e List.mem_cons_self)
      · exact hrep r hr
    · exact Nat.add_le_add (Nat.mod_le _ _) hcount

theorem grounded_ofGrouping {records : Nat} {g : Grouping} (h : g.Grounded records)
    (levels : List Nat) (d : Dictionary) : (ofGrouping levels g d).1.Grounded records := by
  obtain ⟨hrep, hcount⟩ := grounded_recordsOf g.tracks g.classes d h.representative
  exact ⟨_, records?_ofGrouping levels g d, hrep, hcount.trans h.count⟩

end Snapshot

/-! ## Scans -/

namespace Dataset

section
variable {d : Dataset} (hd : d.WellFormed) {levels : List Nat} (hl : d.Admits levels)
include hd hl

theorem WellFormed.grounded_grouping (tracks : Bool) :
    (d.grouping tracks levels).Grounded d.records ∧
      (d.grouping tracks levels).Wide d.hierarchies.length := by
  refine ⟨⟨fun e he => (exists_row_of_class he).1, ?_⟩, fun e he => ?_⟩
  · rw [Grouping.totalCount, sum_counts]
    exact (Finset.card_filter_le _ _).trans_eq (Finset.card_range _)
  · obtain ⟨hrow, hkey⟩ := exists_row_of_class he
    rw [hkey, hd.key_length hrow hl]

theorem WellFormed.group_grounded {source : ScanSource} (hs : source.Grounded d.records)
    (tracks : Bool) (workers minRecords : Nat) :
    ∃ g, d.group? levels source tracks workers minRecords = some g ∧ g.Grounded d.records ∧
      g.Wide d.hierarchies.length := by
  cases source with
  | records =>
    exact ⟨_, hd.group_records hl tracks workers minRecords, hd.grounded_grouping hl tracks⟩
  | classes g =>
    have hscan : d.scan? levels (.classes g) =
        some (g.classes.map fun e => e.contribution (d.key levels e.representative)) := by
      refine mapM_eq_some_map fun e he => ?_
      rw [classContribution?, hd.generalize_eq (hs.representative e he) hl]
      rfl
    refine ⟨_, by unfold group?; rw [if_pos rfl, hscan, Option.map_some], ?_⟩
    refine Grouping.grounded_ofContributions tracks ?_ ?_ ?_
    · simpa [EquivalenceClass.contribution] using hs.representative
    · rw [List.map_map]
      exact hs.count
    · intro c hc
      obtain ⟨e, he, rfl⟩ := List.mem_map.mp hc
      exact hd.key_length (hs.representative e he) hl
  | snapshot s dictionary =>
    obtain ⟨kept, hkept, hrep, hcount⟩ := hs
    have hscan : d.scan? levels (.snapshot s dictionary) = some (kept.map fun r =>
        ⟨d.key levels r.representative, r.representative, r.count, r.total,
          r.distribution >>= dictionary.find?⟩) := by
      rw [scan?, hkept, Option.bind_eq_bind, Option.bind_some]
      refine mapM_eq_some_map fun r hr => ?_
      rw [snapshotContribution?, hd.generalize_eq (hrep r hr) hl]
      rfl
    refine ⟨_, by unfold group?; rw [if_pos rfl, hscan, Option.map_some], ?_⟩
    refine Grouping.grounded_ofContributions tracks ?_ ?_ ?_
    · simpa using hrep
    · rw [List.map_map]
      exact hcount
    · intro c hc
      obtain ⟨r, hr, rfl⟩ := List.mem_map.mp hc
      exact hd.key_length (hrep r hr) hl

end
end Dataset
end Recoding
