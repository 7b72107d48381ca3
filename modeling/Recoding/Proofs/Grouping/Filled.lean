import Recoding.Proofs.Grouping.Overflow

/-!
# Tables filled in machine words

Operations in machine words either fail or do what those on unbounded tables do, so the tables
that they fill are partitions. Counters only grow. Therefore an operation fails exactly if the
sums of all that was added under some key do not fit into 64 bits, provided that there are no
more classes than a vector has room for.
-/

namespace Recoding

namespace Contribution

/-- What a single record contributes at most. -/
structure Single (c : Contribution) : Prop where
  count : c.count ≤ 1
  total : c.total ≤ 1
  occurrences : ∀ v, Distribution.occurrences c.distribution v ≤ 1

theorem single_ofRecord (key : List Nat) (row : Nat) (inSubset : Bool) (sensitive : Option Nat) :
    (ofRecord key row inSubset sensitive).Single where
  count := Bool.toNat_le inSubset
  total := le_rfl
  occurrences v := by
    rw [occurrences_ofRecord]
    split_ifs <;> decide

theorem Single.tracked {c : Contribution} (h : c.Single) (own : Bool) : (c.tracked own).Single := by
  cases own with
  | true => exact h
  | false => exact ⟨h.count, h.total, fun _ => Nat.zero_le _⟩

end Contribution

theorem Dataset.single_contributions (d : Dataset) (levels rows : List Nat) :
    ∀ c ∈ rows.map (d.contribution levels), c.Single := by
  intro c hc
  obtain ⟨row, -, rfl⟩ := List.mem_map.mp hc
  exact Contribution.single_ofRecord _ _ _ _

namespace Grouping
variable {tracks : Bool} {own : List Contribution}

/-- What is added up in a class fits into 64 bits. -/
structure Fits (tracks : Bool) (own : List Contribution) : Prop where
  count : (own.map (·.count)).sum < 2 ^ 64
  total : (own.map (·.total)).sum < 2 ^ 64
  occurrences : tracks = true → ∀ v,
    (own.map fun c => Distribution.occurrences c.distribution v).sum < 2 ^ 64

theorem fits_nil : Fits tracks [] :=
  ⟨Nat.two_pow_pos 64, Nat.two_pow_pos 64, fun _ _ => Nat.two_pow_pos 64⟩

theorem SumsUp.fits_iff {e : EquivalenceClass} (h : SumsUp tracks own e) :
    e.Fits ↔ Fits tracks own := by
  constructor
  · intro hfits
    exact ⟨h.count ▸ hfits.count, h.total ▸ hfits.total,
      fun ht v => h.occurrences ht v ▸ hfits.occurrences v⟩
  · intro hfits
    refine ⟨h.count ▸ hfits.count, h.total ▸ hfits.total, fun v => ?_⟩
    cases tracks with
    | true =>
      rw [h.occurrences rfl]
      exact hfits.occurrences rfl v
    | false =>
      have hnone : e.distribution = none := by simpa using h.distributed
      rw [hnone]
      exact Nat.two_pow_pos 64

theorem withKey_append (key : List Nat) (cs ds : List Contribution) :
    withKey key (cs ++ ds) = withKey key cs ++ withKey key ds := List.filter_append ..

theorem Fits.of_sublist {before : List Contribution} (h : Fits tracks own)
    (hsub : before.Sublist own) : Fits tracks before := by
  have hsum : ∀ f : Contribution → Nat, (before.map f).sum ≤ (own.map f).sum := fun f =>
    (hsub.map f).sum_le_sum fun _ _ => Nat.zero_le _
  exact ⟨(hsum _).trans_lt h.count, (hsum _).trans_lt h.total,
    fun ht v => (hsum _).trans_lt (h.occurrences ht v)⟩

/-- So few records cannot make a counter overflow. -/
theorem fits_of_single {cs : List Contribution} (h : ∀ c ∈ cs, c.Single)
    (hfew : cs.length < 2 ^ 64) (key : List Nat) : Fits tracks (withKey key cs) := by
  have hsum : ∀ f : Contribution → Nat, (∀ c ∈ cs, f c ≤ 1) →
      ((withKey key cs).map f).sum < 2 ^ 64 := by
    intro f hf
    have hle := List.sum_le_card_nsmul ((withKey key cs).map f) 1 fun n hn => by
      obtain ⟨c, hc, rfl⟩ := List.mem_map.mp hn
      exact hf c (List.mem_of_mem_filter hc)
    rw [List.length_map, smul_eq_mul, Nat.mul_one] at hle
    exact hle.trans_lt ((List.length_filter_le ..).trans_lt hfew)
  exact ⟨hsum _ fun c hc => (h c hc).count, hsum _ fun c hc => (h c hc).total,
    fun _ v => hsum _ fun c hc => (h c hc).occurrences v⟩

theorem Canonical.head {c : Contribution} {cs : List Contribution} (h : Canonical (c :: cs)) :
    ∀ d ∈ c.distribution, d.Canonical :=
  fun d hd => h d (List.mem_map.mpr ⟨c, List.mem_cons_self, hd⟩)

theorem Canonical.tail {c : Contribution} {cs : List Contribution} (h : Canonical (c :: cs)) :
    Canonical cs := h.mono (List.subset_cons_self c cs)

theorem length_keysOf_le (cs : List Contribution) : (keysOf cs).length ≤ cs.length := by
  have hsub : (keysOf cs).Subperm (cs.map (·.key)) :=
    List.subperm_of_subset (nodup_keysOf cs) fun key hkey => List.mem_map.mpr (mem_keysOf.mp hkey)
  simpa using hsub.length_le

theorem length_keysOf_mono {cs ds : List Contribution} (h : cs ⊆ ds) :
    (keysOf cs).length ≤ (keysOf ds).length := by
  refine (List.subperm_of_subset (nodup_keysOf cs) fun key hkey => ?_).length_le
  obtain ⟨c, hc, hown⟩ := mem_keysOf.mp hkey
  exact mem_keysOf.mpr ⟨c, h hc, hown⟩

end Grouping

namespace ClassTable
variable {hash : List Nat → UInt64} {t u other : ClassTable} {cs ds : List Contribution}

theorem Holding.mem_entries (h : t.Holding hash cs) {e : EquivalenceClass} :
    e ∈ t.entries ↔ ∃ key ∈ Grouping.keysOf cs,
      Grouping.classOf t.tracks key (Grouping.withKey key cs) = e := by
  rw [← h.linked.classes_eq, h.classes_eq, List.mem_map]

theorem Holding.fits_iff (h : t.Holding hash cs) :
    t.Fits ↔ ∀ key, Grouping.Fits t.tracks (Grouping.withKey key cs) := by
  have hsums : ∀ e ∈ t.entries, e.Fits ↔ Grouping.Fits t.tracks (Grouping.withKey e.key cs) :=
    fun e he => (h.sumsUp (h.linked.classes_eq ▸ he)).fits_iff
  constructor
  · intro hfits key
    by_cases hkey : key ∈ Grouping.keysOf cs
    · have he := h.mem_entries.mpr ⟨key, hkey, rfl⟩
      exact (hsums _ he).mp (hfits _ he)
    · rw [Grouping.withKey_eq_nil.mpr hkey]
      exact Grouping.fits_nil
  · intro hfits e he
    exact (hsums e he).mpr (hfits e.key)

theorem Holding.canonical_entries (h : t.Holding hash cs) :
    ∀ e ∈ t.entries, ∀ d ∈ e.distribution, d.Canonical := by
  intro e he d hd
  obtain ⟨key, -, rfl⟩ := h.mem_entries.mp he
  change d ∈ (if t.tracks then _ else none) at hd
  split_ifs at hd
  · exact (Distribution.joint_spec (h.canonical.mono (List.filter_subset_self _))).2.1 d hd
  · cases hd

theorem Holding.size_eq (h : t.Holding hash cs) : t.size = (Grouping.keysOf cs).length := by
  rw [h.linked.size_eq, h.grouping_eq, Grouping.size_ofContributions]

theorem Holding.tracks_add (h : t.Holding hash cs) (c : Contribution) :
    (t.add hash c).tracks = t.tracks := congrArg Grouping.tracks (h.linked.add c).2

/-! ## Single operations -/

/-- A table that holds its contributions in words, with buckets that fit into memory. -/
structure Sound (hash : List Nat → UInt64) (t : ClassTable) (cs : List Contribution) : Prop
    extends Holding hash t cs where
  fits : t.Fits
  buckets_lt : t.buckets.size < 2 ^ 59

theorem sound_ofCapacity? {capacity : Nat} {tracks : Bool}
    (h : ofCapacity? capacity tracks = some t) : t.Sound hash [] := by
  unfold ofCapacity? at h
  split_ifs at h with hbuckets
  cases h
  exact {
    toHolding := holding_ofCapacity capacity tracks
    fits := fun e he => by cases he
    buckets_lt := by rwa [ofCapacity, Array.size_replicate] }

theorem buckets_add (t : ClassTable) (hash : List Nat → UInt64) (c : Contribution) :
    (t.add hash c).buckets.size = if t.slotOf? hash c.key = none ∧ t.crowded = true then
      t.buckets.size * 2 else t.buckets.size := by
  change (t.findOrInsert hash c.key c.representative).2.buckets.size = _
  rw [findOrInsert]
  cases t.slotOf? hash c.key with
  | some i => rfl
  | none =>
    dsimp only [fill]
    rw [Array.size_setIfInBounds]
    by_cases hcrowded : t.crowded = true
    · rw [if_pos hcrowded, if_pos ⟨rfl, hcrowded⟩, rehash, Slot.size_chain, Array.size_replicate]
    · rw [if_neg hcrowded, if_neg fun hand => hcrowded hand.2]

theorem Sound.add?_iff (h : t.Sound hash cs) {c : Contribution}
    (hc : ∀ d ∈ c.distribution, d.Canonical) : t.add? hash c = some u ↔
      u = t.add hash c ∧ t.Roomy hash c.key ∧
        ∀ key, Grouping.Fits t.tracks (Grouping.withKey key (cs ++ [c])) := by
  rw [h.linked.add?_iff h.fits h.canonical_entries hc]
  refine and_congr_right fun hu => and_congr_right fun _ => ?_
  rw [hu, (h.toHolding.add hc).fits_iff, h.tracks_add]

theorem Sound.of_add? (h : t.Sound hash cs) {c : Contribution}
    (hc : ∀ d ∈ c.distribution, d.Canonical) (hadd : t.add? hash c = some u) :
    u.Sound hash (cs ++ [c]) := by
  obtain ⟨rfl, hroom, hfits⟩ := (h.add?_iff hc).mp hadd
  have hholding := h.toHolding.add hc
  refine { toHolding := hholding, fits := hholding.fits_iff.mpr ?_, buckets_lt := ?_ }
  · rwa [h.tracks_add]
  · rw [buckets_add]
    split_ifs with hgrow
    · exact hroom hgrow.1 hgrow.2
    · exact h.buckets_lt

theorem Sound.roomy (h : t.Sound hash cs) {c : Contribution}
    (hfew : (Grouping.keysOf (cs ++ [c])).length ≤ 2 ^ 55) : t.Roomy hash c.key := by
  intro hnone hcrowded
  apply size_mul_two_lt h.buckets_lt _ hcrowded
  have hnew : c.key ∉ Grouping.keysOf cs := by
    rw [← h.keys_eq, h.linked.classes_eq]
    exact h.linked.notMem_of_slotOf hnone
  rw [Grouping.keysOf_concat, if_neg hnew, List.length_append, ← h.size_eq] at hfew
  exact hfew

theorem Sound.add?_eq (h : t.Sound hash cs) {c : Contribution}
    (hc : ∀ d ∈ c.distribution, d.Canonical)
    (hfew : (Grouping.keysOf (cs ++ [c])).length ≤ 2 ^ 55)
    (hfits : ∀ key, Grouping.Fits t.tracks (Grouping.withKey key (cs ++ [c]))) :
    t.add? hash c = some (t.add hash c) := (h.add?_iff hc).mpr ⟨rfl, h.roomy hfew, hfits⟩

theorem Sound.isSome_add? (h : t.Sound hash cs) {c : Contribution}
    (hc : ∀ d ∈ c.distribution, d.Canonical)
    (hfew : (Grouping.keysOf (cs ++ [c])).length ≤ 2 ^ 55) : (t.add? hash c).isSome ↔
      ∀ key, Grouping.Fits t.tracks (Grouping.withKey key (cs ++ [c])) := by
  constructor
  · intro hsome
    obtain ⟨u, hadd⟩ := Option.isSome_iff_exists.mp hsome
    exact ((h.add?_iff hc).mp hadd).2.2
  · intro hfits
    rw [h.add?_eq hc hfew hfits]
    rfl

/-! ## Merging -/

theorem Sound.of_addAll? (h : t.Sound hash cs) (hds : Grouping.Canonical ds)
    (hadd : t.addAll? hash ds = some u) :
    u = ds.foldl (fun t c => t.add hash c) t ∧ u.Sound hash (cs ++ ds) := by
  induction ds generalizing t cs with
  | nil =>
    cases hadd
    rw [List.append_nil]
    exact ⟨rfl, h⟩
  | cons c ds ih =>
    obtain ⟨next, hnext, hrest⟩ := Option.bind_eq_some_iff.mp hadd
    have hstep := (h.add?_iff hds.head).mp hnext
    obtain ⟨hu, hsound⟩ := ih (h.of_add? hds.head hnext) hds.tail hrest
    rw [List.append_assoc] at hsound
    exact ⟨by rw [hu, hstep.1]; rfl, hsound⟩

theorem Sound.exists_addAll? (h : t.Sound hash cs) (hds : Grouping.Canonical ds)
    (hfew : (Grouping.keysOf (cs ++ ds)).length ≤ 2 ^ 55)
    (hfits : ∀ key, Grouping.Fits t.tracks (Grouping.withKey key (cs ++ ds))) :
    ∃ u, t.addAll? hash ds = some u := by
  induction ds generalizing t cs with
  | nil => exact ⟨t, rfl⟩
  | cons c ds ih =>
    rw [List.append_cons] at hfew hfits
    have hfirst : (t.add? hash c).isSome := by
      rw [h.isSome_add? hds.head
        ((Grouping.length_keysOf_mono (List.subset_append_left _ _)).trans hfew)]
      -- what is added later only makes the sums larger
      intro key
      have hkey := hfits key
      rw [Grouping.withKey_append] at hkey
      exact hkey.of_sublist (List.sublist_append_left _ _)
    obtain ⟨next, hnext⟩ := Option.isSome_iff_exists.mp hfirst
    have htracks : next.tracks = t.tracks := by
      rw [((h.add?_iff hds.head).mp hnext).1, h.tracks_add]
    obtain ⟨u, hu⟩ := ih (h.of_add? hds.head hnext) hds.tail hfew (htracks ▸ hfits)
    exact ⟨u, Option.bind_eq_some_iff.mpr ⟨next, hnext, hu⟩⟩

def parts (t : ClassTable) : List Contribution := t.classes.map fun e => e.contribution e.key

theorem merge_eq (t other : ClassTable) (hash : List Nat → UInt64) :
    t.merge hash other = other.parts.foldl (fun t c => t.add hash c) t := by
  rw [merge, parts, List.foldl_map]

theorem Holding.canonical_parts (h : t.Holding hash cs) : Grouping.Canonical t.parts := by
  intro d hd
  obtain ⟨e, he, hown⟩ : ∃ e ∈ t.classes, e.distribution = some d := by
    simpa [parts, EquivalenceClass.contribution] using hd
  exact h.canonical_entries e (h.linked.classes_eq ▸ he) d hown

theorem Holding.addAll (h : t.Holding hash cs) (hds : Grouping.Canonical ds) :
    (ds.foldl (fun t c => t.add hash c) t).Holding hash (cs ++ ds) ∧
      (ds.foldl (fun t c => t.add hash c) t).tracks = t.tracks := by
  induction ds generalizing t cs with
  | nil => exact ⟨by rwa [List.append_nil], rfl⟩
  | cons c ds ih =>
    obtain ⟨hholding, htracks⟩ := ih (h.add hds.head) hds.tail
    rw [List.append_assoc] at hholding
    exact ⟨hholding, htracks.trans (h.tracks_add c)⟩

theorem Holding.merge_parts (h : t.Holding hash cs) (hother : other.Holding hash ds) :
    (t.merge hash other).Holding hash (cs ++ other.parts) ∧
      (t.merge hash other).tracks = t.tracks := by
  rw [merge_eq]
  exact h.addAll hother.canonical_parts

theorem Sound.of_merge? (h : t.Sound hash cs) (hother : other.Sound hash ds)
    (hmerge : t.merge? hash other = some u) :
    u = t.merge hash other ∧ u.Sound hash (cs ++ ds.map (·.tracked other.tracks)) := by
  obtain ⟨hu, hsound⟩ := h.of_addAll? hother.canonical_parts hmerge
  rw [← merge_eq] at hu
  subst hu
  exact ⟨rfl, {
    toHolding := h.toHolding.merge hother.toHolding
    fits := hsound.fits
    buckets_lt := hsound.buckets_lt }⟩

/-- The classes of another table are added one after the other, but it is the sums in the end
that matter. -/
theorem Sound.isSome_merge? (h : t.Sound hash cs) (hother : other.Sound hash ds)
    (hfew : (Grouping.keysOf (cs ++ ds.map (·.tracked other.tracks))).length ≤ 2 ^ 55) :
    (t.merge? hash other).isSome ↔ ∀ key, Grouping.Fits t.tracks
      (Grouping.withKey key (cs ++ ds.map (·.tracked other.tracks))) := by
  -- the same table holds what the other one was made of, and what its classes contribute
  have hmerged := h.toHolding.merge hother.toHolding
  obtain ⟨hparts, htracks⟩ := h.toHolding.merge_parts hother.toHolding
  have hfits := hmerged.fits_iff.symm.trans hparts.fits_iff
  rw [htracks] at hfits
  constructor
  · intro hsome
    obtain ⟨u, hu⟩ := Option.isSome_iff_exists.mp hsome
    obtain ⟨rfl, hsound⟩ := h.of_merge? hother hu
    rw [← htracks]
    exact hmerged.fits_iff.mp hsound.fits
  · intro hown
    rw [← hmerged.size_eq, hparts.size_eq] at hfew
    exact Option.isSome_iff_exists.mpr
      (h.exists_addAll? hother.canonical_parts hfew (hfits.mp hown))

theorem Sound.merge?_eq (h : t.Sound hash cs) (hother : other.Sound hash ds)
    (hfew : (Grouping.keysOf (cs ++ ds.map (·.tracked other.tracks))).length ≤ 2 ^ 55)
    (hfits : ∀ key, Grouping.Fits t.tracks
      (Grouping.withKey key (cs ++ ds.map (·.tracked other.tracks)))) :
    t.merge? hash other = some (t.merge hash other) := by
  obtain ⟨u, hu⟩ := Option.isSome_iff_exists.mp ((h.isSome_merge? hother hfew).mpr hfits)
  rw [hu, (h.of_merge? hother hu).1]

/-! ## Sequences of operations -/

/-- The tables that operations in machine words lead to, with everything that was added. -/
inductive Filled (hash : List Nat → UInt64) : ClassTable → List Contribution → Prop
  | new {capacity : Nat} {tracks : Bool} {t : ClassTable}
      (made : ofCapacity? capacity tracks = some t) : Filled hash t []
  | record {t u : ClassTable} {cs : List Contribution} (before : Filled hash t cs)
      {key : List Nat} {row : Nat} {inSubset : Bool} {sensitive : Option Nat}
      (added : t.add? hash (.ofRecord key row inSubset sensitive) = some u) :
      Filled hash u (cs ++ [.ofRecord key row inSubset sensitive])
  | whole {t u : ClassTable} {cs : List Contribution} (before : Filled hash t cs)
      {c : Contribution} (canonical : ∀ d ∈ c.distribution, d.Canonical)
      (added : t.add? hash c = some u) : Filled hash u (cs ++ [c])
  | merge {t other u : ClassTable} {cs ds : List Contribution} (before : Filled hash t cs)
      (others : Filled hash other ds) (merged : t.merge? hash other = some u) :
      Filled hash u (cs ++ ds.map (·.tracked other.tracks))

theorem Filled.sound (h : t.Filled hash cs) : t.Sound hash cs := by
  induction h with
  | new made => exact sound_ofCapacity? made
  | record before added ih => exact ih.of_add? (Contribution.canonical_ofRecord _ _ _ _) added
  | whole before canonical added ih => exact ih.of_add? canonical added
  | merge before others merged ih hothers => exact (ih.of_merge? hothers merged).2

theorem Sound.totalCount?_eq (h : t.Sound hash cs) :
    t.totalCount? = word? (cs.map (·.count)).sum := by
  rw [totalCount?, sum?_eq, ← Grouping.totalCount_ofContributions t.tracks, ← h.grouping_eq,
    ← h.linked.totalCount_eq, totalCount]

theorem Sound.totalRecords?_eq (h : t.Sound hash cs) :
    t.totalRecords? = word? (cs.map (·.total)).sum := by
  rw [totalRecords?, sum?_eq, ← Grouping.totalRecords_ofContributions t.tracks, ← h.grouping_eq,
    ← h.linked.totalRecords_eq, totalRecords]

/-! ## Scans -/

theorem filled_records (d : Dataset) (levels : List Nat) {capacity : Nat}
    (hcapacity : capacity ≤ 2 ^ 55) (tracks : Bool) {rows : List Nat}
    (hrows : rows.length ≤ 2 ^ 55) :
    (ofContributions hash capacity tracks (rows.map (d.contribution levels))).Filled hash
      (rows.map (d.contribution levels)) := by
  induction rows using List.reverseRecOn with
  | nil => exact .new (ofCapacity?_eq (by omega) tracks)
  | append_singleton rows row ih =>
    rw [List.length_append, List.length_singleton] at hrows
    have hbefore := ih (by omega)
    have hsingle := d.single_contributions levels (rows ++ [row])
    have hlength : ((rows ++ [row]).map (d.contribution levels)).length ≤ 2 ^ 55 := by
      simpa using hrows
    rw [List.map_append, List.map_singleton] at hsingle hlength ⊢
    rw [ofContributions, List.foldl_append]
    exact hbefore.record (hbefore.sound.add?_eq (Contribution.canonical_ofRecord _ _ _ _)
      ((Grouping.length_keysOf_le _).trans hlength)
      (Grouping.fits_of_single hsingle (hlength.trans_lt (by decide))))

theorem Filled.mergeAll (h : t.Filled hash cs) (hcs : ∀ c ∈ cs, c.Single)
    {made : List (ClassTable × List Contribution)}
    (hmade : ∀ part ∈ made, part.1.Filled hash part.2 ∧ ∀ c ∈ part.2, c.Single)
    (hfew : cs.length + (made.map (·.2.length)).sum ≤ 2 ^ 55) :
    ∃ ds, ((made.map (·.1)).foldl (fun t part => t.merge hash part) t).Filled hash ds := by
  induction made generalizing t cs with
  | nil => exact ⟨cs, h⟩
  | cons part made ih =>
    obtain ⟨hpart, hown⟩ := hmade part List.mem_cons_self
    have hsingle : ∀ c ∈ cs ++ part.2.map (·.tracked part.1.tracks), c.Single := by
      intro c hc
      rcases List.mem_append.mp hc with hc | hc
      · exact hcs c hc
      · obtain ⟨own, hmem, rfl⟩ := List.mem_map.mp hc
        exact (hown own hmem).tracked _
    have hlength : (cs ++ part.2.map (·.tracked part.1.tracks)).length =
        cs.length + part.2.length := by
      rw [List.length_append, List.length_map]
    rw [List.map_cons, List.sum_cons, ← Nat.add_assoc, ← hlength] at hfew
    have hmerged := h.sound.merge?_eq hpart.sound
      ((Grouping.length_keysOf_le _).trans (by omega)) (Grouping.fits_of_single hsingle (by omega))
    exact ih (h.merge hpart hmerged) hsingle
      (fun other hother => hmade other (List.mem_cons_of_mem _ hother)) hfew

end ClassTable

namespace Dataset

theorem length_part_le (d : Dataset) (parts index : Nat) :
    (d.part parts index).length ≤ d.records := by
  have hnodup : (d.part parts index).Nodup := by
    rw [part_eq]
    exact List.Nodup.filter _ List.nodup_range'
  have hsub : (d.part parts index).Subperm (List.range d.records) :=
    List.subperm_of_subset hnodup fun row hrow => List.mem_range.mpr (lt_of_mem_part hrow)
  simpa using hsub.length_le

section
variable {d : Dataset} (hd : d.WellFormed) {levels : List Nat} (hl : d.Admits levels)
  (hash : List Nat → UInt64) (hfew : d.records ≤ 2 ^ 55)
include hd hl hfew

theorem WellFormed.filled_tableInParts (tracks : Bool) {parts : Nat} (hparts : 0 < parts)
    {t : ClassTable} (ht : d.tableInParts? hash levels tracks parts = some t) :
    ∃ cs, t.Filled hash cs := by
  obtain ⟨first, rest, hrange, htable⟩ := hd.tableInParts_eq hl hash tracks hparts
  cases htable.symm.trans ht
  let made (i : Nat) : ClassTable × List Contribution :=
    (d.partTable hash levels tracks parts i, (d.part parts i).map (d.contribution levels))
  have hmade : ∀ i, (made i).1.Filled hash (made i).2 ∧ ∀ c ∈ (made i).2, c.Single := by
    intro i
    have hlength := (d.length_part_le parts i).trans hfew
    exact ⟨ClassTable.filled_records d levels hlength tracks hlength,
      d.single_contributions levels _⟩
  have hsum : (made first).2.length + ((rest.map made).map (·.2.length)).sum = d.records := by
    have hlength := congrArg List.length (d.flatMap_part hparts)
    rw [List.length_flatMap, hrange, List.map_cons, List.sum_cons, List.length_range] at hlength
    simpa [made, Function.comp_def] using hlength
  have hmerged := (hmade first).1.mergeAll (hmade first).2 (fun part hpart => by
    obtain ⟨i, -, rfl⟩ := List.mem_map.mp hpart
    exact hmade i) (hsum.trans_le hfew)
  rwa [List.map_map] at hmerged

/-- No counter overflows in a scan of all records. -/
theorem WellFormed.filled_table (tracks : Bool) (workers minRecords : Nat) {t : ClassTable}
    (ht : d.table? hash levels .records tracks workers minRecords = some t) :
    ∃ cs, t.Filled hash cs := by
  by_cases hone : d.partCount workers minRecords = 1
  · cases (hd.table_eq hl hash hone tracks).symm.trans ht
    exact ⟨_, ClassTable.filled_records d levels hfew tracks (by rwa [List.length_range])⟩
  · rw [table?, if_neg hone] at ht
    exact hd.filled_tableInParts hl hash hfew tracks (d.partCount_pos workers minRecords) ht

end

end Dataset

namespace ClassTable

/-- Whatever the hash function is, a table that was filled lists every key that occurred once, in
the order of the first occurrences, finds the classes of these keys and no others, and has
classes that sum up what was added under their keys. Of the things that are added to few keys,
those are taken up whose sums fit into 64 bits. A scan of all records, in any number of parts,
makes a table in which every record is in exactly one class. -/
theorem filled_partition (hash : List Nat → UInt64) :
    (∀ capacity < 2 ^ 64, ∀ tracks,
      (ofCapacity? capacity tracks).isSome ↔ capacity ≤ 3 * 2 ^ 56 + 16) ∧
    (∀ (t : ClassTable) (cs : List Contribution), t.Filled hash cs →
      t.classes.map (·.key) = Grouping.keysOf cs ∧ (Grouping.keysOf cs).Nodup ∧
      (∀ key, (t.find? hash key).isSome ↔ ∃ c ∈ cs, c.key = key) ∧
      (∀ key e, t.find? hash key = some e ↔ e ∈ t.classes ∧ e.key = key) ∧
      (∀ e ∈ t.classes, Grouping.SumsUp t.tracks (Grouping.withKey e.key cs) e) ∧
      t.size = (Grouping.keysOf cs).length ∧ t.totalCount? = word? (cs.map (·.count)).sum ∧
      t.totalRecords? = word? (cs.map (·.total)).sum ∧
      (∀ c : Contribution, (∀ d ∈ c.distribution, d.Canonical) →
        (Grouping.keysOf (cs ++ [c])).length ≤ 2 ^ 55 → ((t.add? hash c).isSome ↔
          ∀ key, Grouping.Fits t.tracks (Grouping.withKey key (cs ++ [c])))) ∧
      ∀ (other : ClassTable) (ds : List Contribution), other.Filled hash ds →
        (Grouping.keysOf (cs ++ ds.map (·.tracked other.tracks))).length ≤ 2 ^ 55 →
        ((t.merge? hash other).isSome ↔ ∀ key, Grouping.Fits t.tracks
          (Grouping.withKey key (cs ++ ds.map (·.tracked other.tracks))))) ∧
    (∀ key row inSubset sensitive v, Distribution.occurrences
      (Contribution.ofRecord key row inSubset sensitive).distribution v =
        if inSubset ∧ sensitive = some v then 1 else 0) ∧
    ∀ d : Dataset, d.Accepted → d.records ≤ 2 ^ 55 → ∀ levels, d.Admits levels →
      ∀ tracks workers minRecords,
      ∃ t cs, d.table? hash levels .records tracks workers minRecords = some t ∧
        t.Filled hash cs ∧
        d.group? levels .records tracks workers minRecords = some t.grouping ∧
        (∀ row < d.records, ∃! e, e ∈ t.classes ∧ d.generalize? row levels = some e.key) ∧
        (∀ e ∈ t.classes, e.total =
          (List.range d.records).countP fun row => d.generalize? row levels = some e.key) ∧
        t.totalRecords? = some d.records ∧ t.totalCount? = some d.subsetSize := by
  refine ⟨fun capacity hcapacity tracks => isSome_ofCapacity? hcapacity tracks,
    fun t cs hfilled => ?_, Contribution.occurrences_ofRecord,
    fun d hd hfew levels hl tracks workers minRecords => ?_⟩
  · have h := hfilled.sound
    refine ⟨h.keys_eq, Grouping.nodup_keysOf cs, fun key => ?_, fun key e => h.find?_eq_some,
      fun e he => h.sumsUp he, h.size_eq, h.totalCount?_eq, h.totalRecords?_eq,
      fun c hc hfew => h.isSome_add? hc hfew,
      fun other ds hother hfew => h.isSome_merge? hother.sound hfew⟩
    rw [Option.isSome_iff_exists, ← Grouping.mem_keysOf, ← h.keys_eq, List.mem_map]
    exact exists_congr fun e => h.find?_eq_some
  · have hwell := hd.wellFormed
    obtain ⟨t, -, htable, -, hgrouping, hgroup⟩ :=
      hwell.exists_table hl hash tracks workers minRecords
    obtain ⟨cs, hfilled⟩ := hwell.filled_table hl hash hfew tracks workers minRecords htable
    have hclasses : t.classes = (d.grouping tracks levels).classes :=
      congrArg Grouping.classes hgrouping
    have hrecords : t.totalRecords = d.records := by
      rw [hfilled.sound.linked.totalRecords_eq, hgrouping, d.totalRecords_grouping]
    have hsubset : t.totalCount = d.subsetSize := by
      rw [hfilled.sound.linked.totalCount_eq, hgrouping, Grouping.totalCount, d.sum_counts,
        hwell.card_members]
    refine ⟨t, cs, htable, hfilled, hgroup, ?_, ?_, ?_, ?_⟩
    · rw [hclasses]
      exact fun row hrow => hwell.exists_unique_class hl tracks hrow
    · rw [hclasses]
      exact fun e he => hwell.total_eq hl he
    · rw [totalRecords?, sum?_eq, ← totalRecords, hrecords, word?_eq (by omega)]
    · have hle : d.subsetSize ≤ d.records := by
        rw [← hwell.card_members, ← Finset.card_range d.records]
        exact Finset.card_filter_le _ _
      rw [totalCount?, sum?_eq, ← totalCount, hsubset, word?_eq (by omega)]

/-- Two keys share a bucket; the class of one of them comes from a table without
distributions. -/
theorem filled_partition_sample :
    let hash : List Nat → UInt64 := fun _ => 0
    let record := Contribution.ofRecord [7] 3 true (some 5)
    let whole : Contribution := ⟨[8], 1, 2, 4, some ⟨[(5, 2)]⟩⟩
    let t := ((ofCapacity 0 true).add hash record).merge hash ((ofCapacity 9 false).add hash whole)
    (ofCapacity? 9 false).isSome ∧ t.classes.map (·.key) = [[7], [8]] ∧ t.size = 2 ∧
      t.totalCount? = some 3 ∧ t.totalRecords? = some 5 ∧
      (∃ e, t.find? hash [8] = some e ∧ e.representative = 1 ∧ e.distribution = none) ∧
      (t.add? hash record).isSome ∧
      ∃ s, Sample.diagnosed.table? hash [1] .records true 2 1 = some s ∧
        s.totalRecords? = some 2 ∧ s.totalCount? = some 2 := by
  intro hash record whole t
  have hrecord : ∀ d ∈ record.distribution, d.Canonical :=
    Contribution.canonical_ofRecord [7] 3 true (some 5)
  have hwhole : ∀ d ∈ whole.distribution, d.Canonical := by
    rintro d ⟨⟩
    exact ⟨by decide, by decide⟩
  have hoccurrences : ∀ v, Distribution.occurrences record.distribution v ≤ 1 :=
    (Contribution.single_ofRecord _ _ _ _).occurrences
  have hfits : Grouping.Fits true [record, whole.tracked false, record] :=
    ⟨by decide, by decide, fun _ v => by
      have hle := hoccurrences v
      change Distribution.occurrences record.distribution v +
        (0 + (Distribution.occurrences record.distribution v + 0)) < 2 ^ 64
      omega⟩
  have hown : Grouping.Fits false [whole] := ⟨by decide, by decide, nofun⟩
  have hempty : (ofCapacity 0 true).Filled hash [] := .new (ofCapacity?_eq (Nat.zero_le _) true)
  have hfirst : ((ofCapacity 0 true).add hash record).Filled hash [record] :=
    hempty.whole hrecord (hempty.sound.add?_eq hrecord (by decide) fun key =>
      hfits.of_sublist (List.filter_sublist.trans (List.singleton_sublist.mpr List.mem_cons_self)))
  have hnew : (ofCapacity 9 false).Filled hash [] := .new (ofCapacity?_eq (by decide) false)
  have hother : ((ofCapacity 9 false).add hash whole).Filled hash [whole] :=
    hnew.whole hwhole (hnew.sound.add?_eq hwhole (by decide) fun key =>
      hown.of_sublist List.filter_sublist)
  have htracks : ((ofCapacity 0 true).add hash record).tracks = true :=
    hempty.sound.tracks_add record
  have huntracked : ((ofCapacity 9 false).add hash whole).tracks = false :=
    hnew.sound.tracks_add whole
  have hfilled : t.Filled hash ([record] ++ [whole].map (·.tracked false)) := by
    rw [← huntracked]
    refine hfirst.merge hother (hfirst.sound.merge?_eq hother.sound ?_ fun key => ?_)
    · rw [huntracked]
      decide
    · rw [htracks, huntracked]
      exact hfits.of_sublist (List.filter_sublist.trans (List.sublist_append_left _ [record]))
  have hjoint : t.tracks = true :=
    (hfirst.sound.merge_parts hother.sound.toHolding).2.trans htracks
  obtain ⟨hcapacities, htables, -, hscans⟩ := filled_partition hash
  obtain ⟨hkeys, -, hsome, hfind, hsums, hsize, hcount, htotal, hadd, -⟩ := htables t _ hfilled
  obtain ⟨e, he⟩ :=
    Option.isSome_iff_exists.mp ((hsome [8]).mpr ⟨whole.tracked false, by simp, rfl⟩)
  obtain ⟨hmem, hkey⟩ := (hfind [8] e).mp he
  have hclass := hsums e hmem
  rw [hkey] at hclass
  have hnone : ¬ e.distribution.isSome := by
    rw [hclass.distributed]
    exact fun h => absurd h.2 (by decide)
  obtain ⟨s, -, hscan, -, -, -, -, hrecords, hsubset⟩ := hscans Sample.diagnosed
    Sample.diagnosed_accepted (by decide) [1] (.cons (by decide) .nil) true 2 1
  refine ⟨(hcapacities 9 (by decide) false).mpr (by decide), hkeys.trans (by decide),
    hsize.trans (by decide), hcount.trans (by decide), htotal.trans (by decide),
    ⟨e, he, ?_, by simpa using hnone⟩, ?_, s, hscan, hrecords, hsubset⟩
  · exact (Option.some.inj hclass.first).symm
  · refine (hadd record hrecord (by decide)).mpr fun key => ?_
    rw [hjoint]
    exact hfits.of_sublist List.filter_sublist

/-- A capacity can be too large, and so can the sum of two numbers of records. -/
theorem partition_overflow :
    let hash : List Nat → UInt64 := fun _ => 0
    let many : Contribution := ⟨[0], 0, 2 ^ 64 - 1, 2 ^ 64 - 1, none⟩
    let one : Contribution := ⟨[0], 0, 1, 1, none⟩
    ofCapacity? (2 ^ 64 - 1) false = none ∧
      ∃ t, (ofCapacity 0 false).add? hash many = some t ∧ t.add? hash one = none := by
  intro hash many one
  have hempty : (ofCapacity 0 false).Filled hash [] :=
    .new (ofCapacity?_eq (Nat.zero_le _) false)
  have hmany : ∀ d ∈ many.distribution, d.Canonical := fun d hd => by cases hd
  have hone : ∀ d ∈ one.distribution, d.Canonical := fun d hd => by cases hd
  have hfits : Grouping.Fits false [many] := ⟨by decide, by decide, nofun⟩
  have hadd := hempty.sound.add?_eq hmany (by decide) fun key =>
    hfits.of_sublist List.filter_sublist
  have hfilled := hempty.whole hmany hadd
  refine ⟨?_, _, hadd, ?_⟩
  · rw [← Option.not_isSome_iff_eq_none, isSome_ofCapacity? (by decide)]
    decide
  · rw [← Option.not_isSome_iff_eq_none, hfilled.sound.isSome_add? hone (by decide)]
    intro hall
    exact absurd (hall [0]).count (by decide)

end ClassTable
end Recoding
