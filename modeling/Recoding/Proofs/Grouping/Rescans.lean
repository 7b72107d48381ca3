import Recoding.Proofs.Check.Faithful
import Recoding.Proofs.Sample

/-!
# Regroupings and rescans

A grouping may come from a scan of all records, in any number of parts, or from a chain of
regroupings, each of which visits one representative per class of the one before. Nothing
tells the two apart: every link of a chain has the classes of a scan at its own levels.
Distributions get lost at the first link that does not track them.
-/

namespace Recoding

namespace EquivalenceClass

def undistributed (e : EquivalenceClass) : EquivalenceClass := { e with distribution := none }

end EquivalenceClass

namespace Grouping

theorem classes_undistributed (cs : List Contribution) :
    (ofContributions true cs).classes.map EquivalenceClass.undistributed =
      (ofContributions false cs).classes := by
  rw [ofContributions_classes, ofContributions_classes, List.map_map]
  rfl

theorem joint_none {parts : List (Option Distribution)} (h : ∀ part ∈ parts, part = none) :
    Distribution.joint parts = none := by
  rw [List.eq_replicate_of_mem h]
  induction parts.length with
  | zero => rfl
  | succ n ih => rw [List.replicate_succ', Distribution.joint_concat, ih, Distribution.combine]

/-- Tracking adds nothing where no distributions arrive. -/
theorem classes_of_undistributed {cs : List Contribution} (h : ∀ c ∈ cs, c.distribution = none) :
    (ofContributions true cs).classes = (ofContributions false cs).classes := by
  rw [ofContributions_classes, ofContributions_classes]
  refine List.map_congr_left fun key _ => ?_
  have hnone : Distribution.joint ((withKey key cs).map (·.distribution)) = none := by
    refine joint_none fun part hpart => ?_
    obtain ⟨c, hc, rfl⟩ := List.mem_map.mp hpart
    exact h c (List.mem_of_mem_filter hc)
  simp [classOf, hnone]

end Grouping

namespace Dataset
variable {d : Dataset}

theorem distribution_untracked {levels : List Nat} {e : EquivalenceClass}
    (he : e ∈ (d.grouping false levels).classes) : e.distribution = none := by
  rw [grouping, ← Grouping.classes_undistributed] at he
  obtain ⟨own, -, rfl⟩ := List.mem_map.mp he
  rfl

/-- Contributions of the classes of a less generalized grouping form the classes of the
grouping of all records. They have distributions if both groupings track them. -/
theorem WellFormed.regroup_tracked (hd : d.WellFormed) {low high : List Nat}
    (hle : List.Forall₂ (· ≤ ·) low high) (hl : d.Admits high) (own tracks : Bool) :
    Grouping.ofContributions tracks ((d.grouping own low).classes.map fun e =>
      e.contribution (d.key high e.representative)) =
        ⟨tracks, (d.grouping (own && tracks) high).classes⟩ := by
  have hregroup := fun b => congrArg Grouping.classes (hd.regroup hle hl b)
  have hclasses : (Grouping.ofContributions tracks ((d.grouping own low).classes.map fun e =>
      e.contribution (d.key high e.representative))).classes =
        (d.grouping (own && tracks) high).classes := by
    cases own with
    | true =>
      cases tracks with
      | true => exact hregroup true
      | false =>
        rw [← Grouping.classes_undistributed, hregroup true]
        exact Grouping.classes_undistributed _
    | false =>
      cases tracks with
      | true =>
        refine (Grouping.classes_of_undistributed fun c hc => ?_).trans (hregroup false)
        obtain ⟨e, he, rfl⟩ := List.mem_map.mp hc
        exact distribution_untracked he
      | false => exact hregroup false
  rw [← hclasses, Grouping.ofContributions_classes]

/-- The groupings of a dataset at given levels that can be made: by scans of all records and
by regroupings of groupings made before, or of snapshots of them. The flag tells whether
distributions were tracked all the way. -/
inductive Makes (d : Dataset) : Bool → List Nat → Grouping → Prop
  | scanned {tracks : Bool} {levels : List Nat} {workers minRecords : Nat} {g : Grouping}
      (admitted : d.Admits levels)
      (made : d.group? levels .records tracks workers minRecords = some g) :
      Makes d tracks levels g
  | judged {own : Bool} {levels : List Nat} {criteria : List Criterion} {anonymous : Bool}
      {g judged : Grouping} (before : Makes d own levels g)
      (made : g.analyze levels criteria = .ok (anonymous, judged)) : Makes d own levels judged
  | regrouped {own tracks : Bool} {low high : List Nat} {workers minRecords : Nat}
      {g coarser : Grouping} (before : Makes d own low g)
      (above : List.Forall₂ (· ≤ ·) low high) (admitted : d.Admits high)
      (made : d.group? high (.classes g) tracks workers minRecords = some coarser) :
      Makes d (own && tracks) high coarser
  | restored {own tracks : Bool} {low high : List Nat} {workers minRecords : Nat}
      {g coarser : Grouping} {dictionary later : Dictionary} (before : Makes d own low g)
      (narrow : d.records < 2 ^ 32) (sound : dictionary.Sound)
      (room : (Snapshot.ofGrouping low g dictionary).2.size < 2 ^ 32)
      (extended : (Snapshot.ofGrouping low g dictionary).2.Extends later)
      (above : List.Forall₂ (· ≤ ·) low high) (admitted : d.Admits high)
      (made : d.group? high (.snapshot (Snapshot.ofGrouping low g dictionary).1 later) tracks
        workers minRecords = some coarser) :
      Makes d (own && tracks) high coarser

/-- A grouping has the classes of all records at the given levels, apart from verdicts. -/
structure Describes (d : Dataset) (own : Bool) (levels : List Nat) (g : Grouping) : Prop where
  classes : g.classes.map EquivalenceClass.unjudged = (d.grouping own levels).classes
  tracks : own = true → g.tracks = true

namespace Describes
variable {own tracks : Bool} {low high : List Nat} {g : Grouping}

theorem grouping (tracks : Bool) (levels : List Nat) :
    d.Describes tracks levels (d.grouping tracks levels) where
  classes := congrArg Grouping.classes (Grouping.unjudged_ofContributions tracks _)
  tracks h := (Grouping.tracks_ofContributions tracks _).trans h

theorem mk_classes (own tracks : Bool) (levels : List Nat) :
    d.Describes (own && tracks) levels ⟨tracks, (d.grouping (own && tracks) levels).classes⟩ where
  classes := (grouping (own && tracks) levels).classes
  tracks h := (Bool.and_eq_true_iff.mp h).2

theorem judged {criteria : List Criterion} {anonymous : Bool} {result : Grouping}
    (hg : d.Describes own low g) (h : g.analyze low criteria = .ok (anonymous, result)) :
    d.Describes own low result := by
  have hunjudged := Grouping.analyze_unjudged h
  refine ⟨(congrArg Grouping.classes hunjudged).trans hg.classes, fun hown => ?_⟩
  exact (congrArg Grouping.tracks hunjudged).trans (hg.tracks hown)

/-- Visiting the classes of a grouping that describes all records regroups all records. -/
theorem group_classes (hg : d.Describes own low g) (hd : d.WellFormed)
    (hle : List.Forall₂ (· ≤ ·) low high) (hl : d.Admits high) (tracks : Bool)
    (workers minRecords : Nat) : d.group? high (.classes g) tracks workers minRecords =
      some ⟨tracks, (d.grouping (own && tracks) high).classes⟩ := by
  rw [hd.group_classes_eq hl hg.classes, hd.regroup_tracked hle hl]

/-- The numbers of a grouping that describes all records fit into words. -/
theorem narrow (hg : d.Describes own low g) (hr : d.records < 2 ^ 32) :
    ∀ e ∈ g.unjudged.classes, e.Narrow g.unjudged.tracks := by
  intro e he
  have hclasses : g.unjudged.classes = (d.grouping own low).classes := hg.classes
  rw [hclasses] at he
  have hnarrow := narrow_grouping hr own low e he
  refine ⟨hnarrow.representative, hnarrow.count, hnarrow.total, hnarrow.distribution, ?_⟩
  intro huntracked
  cases own with
  | true => exact absurd (hg.tracks rfl) (by simpa [Grouping.unjudged] using huntracked)
  | false => exact hnarrow.tracked rfl

theorem group_snapshot (hg : d.Describes own low g) (hd : d.WellFormed)
    (hr : d.records < 2 ^ 32) {dictionary later : Dictionary} (hdictionary : dictionary.Sound)
    (hroom : (Snapshot.ofGrouping low g dictionary).2.size < 2 ^ 32)
    (hlater : (Snapshot.ofGrouping low g dictionary).2.Extends later)
    (hle : List.Forall₂ (· ≤ ·) low high) (hl : d.Admits high) (tracks : Bool)
    (workers minRecords : Nat) :
    d.group? high (.snapshot (Snapshot.ofGrouping low g dictionary).1 later) tracks workers
      minRecords = some ⟨tracks, (d.grouping (own && tracks) high).classes⟩ := by
  rw [← Snapshot.ofGrouping_unjudged] at hroom hlater ⊢
  obtain ⟨-, hrestores⟩ := Snapshot.restores_ofGrouping (hg.narrow hr) hdictionary low hroom
  have hclasses : g.unjudged.classes = (d.grouping own low).classes := hg.classes
  rw [hclasses] at hrestores
  rw [hd.group_snapshot_eq hl (hrestores.extends hlater), hd.regroup_tracked hle hl]

end Describes

theorem Makes.describes {own : Bool} {levels : List Nat} {g : Grouping}
    (hg : d.Makes own levels g) (hd : d.WellFormed) : d.Describes own levels g := by
  induction hg with
  | scanned admitted made =>
    rw [hd.group_records admitted] at made
    cases made
    exact .grouping _ _
  | judged _ made ih => exact ih.judged made
  | regrouped _ above admitted made ih =>
    rw [ih.group_classes hd above admitted] at made
    cases made
    exact .mk_classes _ _ _
  | restored _ narrow sound room extended above admitted made ih =>
    rw [ih.group_snapshot hd narrow sound room extended above admitted] at made
    cases made
    exact .mk_classes _ _ _

/-- Regrouping any grouping that can be made, or any snapshot of it, yields what a scan of all
records yields at the higher levels: the same classes in the same order, with distributions
if they were tracked all the way. -/
theorem regroup_eq_rescan (hd : d.Accepted) {own : Bool} {low : List Nat}
    {g : Grouping} (hg : d.Makes own low g) {high : List Nat}
    (hle : List.Forall₂ (· ≤ ·) low high) (hl : d.Admits high) (tracks : Bool) :
    ∃ full, full.tracks = (own && tracks) ∧
      (∀ workers minRecords,
        d.group? high .records (own && tracks) workers minRecords = some full) ∧
      (∀ workers minRecords, d.group? high (.classes g) tracks workers minRecords =
        some ⟨tracks, full.classes⟩) ∧
      (d.records < 2 ^ 32 → ∀ dictionary : Dictionary, dictionary.Sound →
        (Snapshot.ofGrouping low g dictionary).2.size < 2 ^ 32 →
        ∀ later, (Snapshot.ofGrouping low g dictionary).2.Extends later →
        ∀ workers minRecords,
          d.group? high (.snapshot (Snapshot.ofGrouping low g dictionary).1 later) tracks
            workers minRecords = some ⟨tracks, full.classes⟩) := by
  have hwell := hd.wellFormed
  have hdescribes := hg.describes hwell
  exact ⟨d.grouping (own && tracks) high, Grouping.tracks_ofContributions _ _,
    hwell.group_records hl _, hdescribes.group_classes hwell hle hl tracks,
    fun hr _ hdictionary hroom _ hlater =>
      hdescribes.group_snapshot hwell hr hdictionary hroom hlater hle hl tracks⟩

/-- Both records of the sample carry a value; the grouping at level 0 is regrouped once at its
own level before it is regrouped, and restored, at level 1. -/
theorem regroup_eq_rescan_sample :
    let d := Sample.diagnosed
    let first : Grouping := ⟨true, [⟨[0], 0, 1, 1, some ⟨[(5, 1)]⟩, false⟩,
      ⟨[1], 1, 1, 1, some ⟨[(6, 1)]⟩, false⟩]⟩
    let full : Grouping := ⟨true, [⟨[2], 0, 2, 2, some ⟨[(5, 1), (6, 1)]⟩, false⟩]⟩
    let stored := Snapshot.ofGrouping [0] first ⟨[⟨[(6, 1)]⟩]⟩
    d.group? [0] .records true 1 1 = some first ∧
      d.group? [0] (.classes first) true 1 1 = some first ∧
      d.group? [1] .records true 2 1 = some full ∧
      d.group? [1] (.classes first) true 1 1 = some full ∧
      d.group? [1] (.snapshot stored.1 stored.2) true 1 1 = some full := by
  intro d first full stored
  have hbottom : d.Admits [0] := .cons (by decide) .nil
  have htop : d.Admits [1] := .cons (by decide) .nil
  have hscanned : d.group? [0] .records true 1 1 = some first := by decide +kernel
  have hregrouped : d.group? [0] (.classes first) true 1 1 = some first := by decide +kernel
  have hfull : d.group? [1] .records true 2 1 = some full := by decide +kernel
  have hmade : d.Makes true [0] first :=
    .regrouped (.scanned hbottom hscanned) (.cons le_rfl .nil) hbottom hregrouped
  obtain ⟨rescanned, -, hrecords, hclasses, hsnapshot⟩ :=
    regroup_eq_rescan Sample.diagnosed_accepted hmade (.cons (by decide) .nil) htop true
  obtain rfl : full = rescanned := Option.some.inj (hfull.symm.trans (hrecords 2 1))
  exact ⟨hscanned, hregrouped, hfull, hclasses 1 1,
    hsnapshot (by decide) _ (by unfold Dictionary.Sound Distribution.Narrow; decide)
      (by decide +kernel) _ (Dictionary.Extends.refl _) 1 1⟩

/-- A scan of all records in parts yields what one pass over them yields, for any number of
workers and any least number of records per part. -/
theorem scan_parts_eq_scan (hd : d.Accepted) {levels : List Nat}
    (hl : d.Admits levels) (tracks : Bool) :
    ∃ g, (d.scan? levels .records).map (Grouping.ofContributions tracks) = some g ∧
      ∀ workers minRecords, d.group? levels .records tracks workers minRecords = some g := by
  have hwell := hd.wellFormed
  refine ⟨d.grouping tracks levels, ?_, hwell.group_records hl tracks⟩
  rw [scan?, mapM_eq_some_map fun row hrow =>
    hwell.recordContribution_eq (List.mem_range.mp hrow) hl]
  rfl

/-- Two workers scan one record each. -/
theorem scan_parts_eq_scan_sample :
    let d := Sample.diagnosed
    d.partCount 2 1 = 2 ∧
      ∃ g, (d.scan? [1] .records).map (Grouping.ofContributions true) = some g ∧
        d.group? [1] .records true 2 1 = some g := by
  obtain ⟨g, hscan, hparts⟩ := scan_parts_eq_scan Sample.diagnosed_accepted
    (.cons (by decide) .nil : Sample.diagnosed.Admits [1]) true
  exact ⟨by decide, g, hscan, hparts 2 1⟩

end Dataset
end Recoding
