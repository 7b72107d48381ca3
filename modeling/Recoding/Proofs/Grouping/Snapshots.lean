import Recoding.Proofs.Grouping.Scans

/-!
# Snapshots restore groupings

Numbers below `2 ^ 32` survive the words of a snapshot, and a number of the dictionary stands
for the same distribution forever. So the records of a snapshot restore the classes they were
made of, also after more distributions have been interned.
-/

namespace Recoding

namespace Distribution

def Narrow (d : Distribution) : Prop := ∀ entry ∈ d.entries, entry.2 < 2 ^ 32

theorem Narrow.encode_injective {d e : Distribution} (hd : d.Narrow) (he : e.Narrow)
    (h : d.encode = e.encode) : d = e := by
  obtain ⟨entries⟩ := d
  obtain ⟨others⟩ := e
  congr 1
  induction entries generalizing others with
  | nil =>
    cases others with
    | nil => rfl
    | cons second others => simp [encode] at h
  | cons first entries ih =>
    cases others with
    | nil => simp [encode] at h
    | cons second others =>
      simp only [encode, List.flatMap_cons, List.cons_append, List.nil_append,
        List.cons.injEq] at h
      obtain ⟨hvalue, hfrequency, hrest⟩ := h
      rw [Nat.mod_eq_of_lt (hd first List.mem_cons_self),
        Nat.mod_eq_of_lt (he second List.mem_cons_self)] at hfrequency
      rw [Prod.ext hvalue hfrequency]
      congr 1
      exact ih (fun x hx => hd x (List.mem_cons_of_mem _ hx)) others
        (fun x hx => he x (List.mem_cons_of_mem _ hx)) hrest

end Distribution

namespace Dictionary

/-- All interned distributions fit into words. -/
def Sound (d : Dictionary) : Prop := ∀ x ∈ d.distributions, x.Narrow

/-- The numbers of one dictionary mean the same in another one. -/
def Extends (d e : Dictionary) : Prop := d.distributions <+: e.distributions

theorem sound_empty : empty.Sound := by simp [Sound, empty]

theorem Extends.refl (d : Dictionary) : d.Extends d := List.prefix_refl _

theorem Extends.trans {c d e : Dictionary} (h : c.Extends d) (k : d.Extends e) : c.Extends e :=
  List.IsPrefix.trans h k

theorem Extends.size_le {d e : Dictionary} (h : d.Extends e) : d.size ≤ e.size := h.length_le

theorem Extends.find? {d e : Dictionary} (h : d.Extends e) {id : Nat} {x : Distribution}
    (hx : d.find? id = some x) : e.find? id = some x := by
  obtain ⟨rest, hrest⟩ := h
  have hlt : id < d.distributions.length := (List.getElem?_eq_some_iff.mp hx).1
  rw [Dictionary.find?, ← hrest, List.getElem?_append_left hlt]
  exact hx

theorem extends_intern (d : Dictionary) (x : Distribution) : d.Extends (d.intern x).2 := by
  unfold intern
  split
  · exact Extends.refl d
  · exact List.prefix_append _ _

theorem intern_spec {d : Dictionary} (hd : d.Sound) {x : Distribution} (hx : x.Narrow)
    (hsize : (d.intern x).2.size < 2 ^ 32) :
    (d.intern x).2.Sound ∧ (d.intern x).2.find? (d.intern x).1 = some x := by
  revert hsize
  unfold intern
  split
  · rename_i id hfind
    intro hsize
    obtain ⟨hlt, hencode, -⟩ := List.findIdx?_eq_some_iff_getElem.mp hfind
    have heq := (hd _ (List.getElem_mem hlt)).encode_injective hx (of_decide_eq_true hencode)
    have hid : id % 2 ^ 32 = id := Nat.mod_eq_of_lt (hlt.trans hsize)
    exact ⟨hd, by simp only [hid, Dictionary.find?, List.getElem?_eq_getElem hlt, heq]⟩
  · intro hsize
    have hid : d.size % 2 ^ 32 = d.distributions.length := by
      simp only [size, List.length_append, List.length_singleton] at hsize ⊢
      exact Nat.mod_eq_of_lt (by omega)
    refine ⟨?_, ?_⟩
    · intro y hy
      rcases List.mem_append.mp hy with hy | hy
      · exact hd y hy
      · rwa [List.mem_singleton.mp hy]
    · dsimp only
      rw [hid, Dictionary.find?, List.getElem?_concat_length]

end Dictionary

/-- A record has the numbers of a class, and its distribution by number. -/
structure SnapshotRecord.Restores (dictionary : Dictionary) (e : EquivalenceClass)
    (r : SnapshotRecord) : Prop where
  representative : r.representative = e.representative
  count : r.count = e.count
  total : r.total = e.total
  distribution : r.distribution.map dictionary.find? = e.distribution.map some

structure EquivalenceClass.Narrow (tracks : Bool) (e : EquivalenceClass) : Prop where
  representative : e.representative < 2 ^ 32
  count : e.count < 2 ^ 32
  total : e.total < 2 ^ 32
  distribution : ∀ d ∈ e.distribution, d.Narrow
  tracked : tracks = false → e.distribution = none

theorem SnapshotRecord.Restores.extends {d e : Dictionary} (h : d.Extends e)
    {c : EquivalenceClass} {r : SnapshotRecord} (hr : r.Restores d c) : r.Restores e c where
  representative := hr.representative
  count := hr.count
  total := hr.total
  distribution := by
    rw [← hr.distribution]
    have hfind := hr.distribution
    cases hid : r.distribution with
    | none => rfl
    | some id =>
      rw [hid] at hfind
      obtain ⟨x, -, hx⟩ := Option.map_eq_some_iff.mp hfind.symm
      rw [Option.map_some, Option.map_some, ← hx, h.find? hx.symm]

theorem SnapshotRecord.Restores.find?_distribution {d : Dictionary} {c : EquivalenceClass}
    {r : SnapshotRecord} (hr : r.Restores d c) : r.distribution >>= d.find? = c.distribution := by
  have h := hr.distribution
  cases hid : r.distribution with
  | none =>
    rw [hid] at h
    exact (Option.map_eq_none_iff.mp h.symm).symm
  | some id =>
    rw [hid] at h
    obtain ⟨x, hx, hfind⟩ := Option.map_eq_some_iff.mp h.symm
    rw [hx, hfind]
    rfl

namespace Snapshot

def width (tracks : Bool) : Nat := if tracks then 4 else 3

theorem extends_wordsOf (tracks : Bool) (e : EquivalenceClass) (d : Dictionary) :
    d.Extends (wordsOf tracks e d).2 := by
  unfold wordsOf
  cases tracks with
  | false => exact Dictionary.Extends.refl d
  | true =>
    cases e.distribution with
    | none => exact Dictionary.Extends.refl d
    | some x => exact Dictionary.extends_intern d x

theorem extends_wordsOfAll (tracks : Bool) (classes : List EquivalenceClass) (d : Dictionary) :
    d.Extends (wordsOfAll tracks classes d).2 := by
  induction classes generalizing d with
  | nil => exact Dictionary.Extends.refl d
  | cons e rest ih => exact (extends_wordsOf tracks e d).trans (ih _)

/-! ## Reading words -/

def recordOf (tracks : Bool) (e : EquivalenceClass) (d : Dictionary) : SnapshotRecord where
  representative := e.representative % 2 ^ 32
  count := e.count % 2 ^ 32
  total := e.total % 2 ^ 32
  distribution :=
    if tracks then e.distribution.bind fun x =>
      if (d.intern x).1 = noDistribution then none else some (d.intern x).1
    else none

/-- The records that are read back of classes, whose distributions are interned in order. -/
def recordsOf (tracks : Bool) : List EquivalenceClass → Dictionary → List SnapshotRecord
  | [], _ => []
  | e :: rest, d => recordOf tracks e d :: recordsOf tracks rest (wordsOf tracks e d).2

/-- Words of which a record of the given width is read back. -/
structure Written (stride : Nat) (r : SnapshotRecord) (words : List Nat) : Prop where
  length : words.length = stride
  reads : ∀ s : Snapshot, ∀ offset, s.stride = stride →
    (∀ i < stride, s.words[offset + i]? = words[i]?) → s.record? offset = some r

theorem written_three (first count total : Nat) :
    Written 3 ⟨first, count, total, none⟩ [first, count, total] := by
  refine ⟨rfl, fun s offset hs hread => ?_⟩
  have h0 := hread 0 (by decide)
  have h1 := hread 1 (by decide)
  have h2 := hread 2 (by decide)
  simp only [Nat.add_zero, List.getElem?_cons_zero, List.getElem?_cons_succ] at h0 h1 h2
  simp [record?, hs, h0, h1, h2]

/-- The fourth word of a record is its distribution, unless it is the word for none. -/
theorem written_four (first count total id : Nat) :
    Written 4 ⟨first, count, total, if id = noDistribution then none else some id⟩
      [first, count, total, id] := by
  refine ⟨rfl, fun s offset hs hread => ?_⟩
  have h0 := hread 0 (by decide)
  have h1 := hread 1 (by decide)
  have h2 := hread 2 (by decide)
  have h3 := hread 3 (by decide)
  simp only [Nat.add_zero, List.getElem?_cons_zero, List.getElem?_cons_succ] at h0 h1 h2 h3
  simp [record?, hs, h0, h1, h2, h3]

theorem written_wordsOf (tracks : Bool) (e : EquivalenceClass) (d : Dictionary) :
    Written (width tracks) (recordOf tracks e d) (wordsOf tracks e d).1 := by
  cases tracks with
  | false => exact written_three _ _ _
  | true =>
    unfold wordsOf recordOf
    cases e.distribution with
    | none => exact written_four _ _ _ noDistribution
    | some x => exact written_four _ _ _ (d.intern x).1

theorem written_wordsOfAll (tracks : Bool) (classes : List EquivalenceClass) (d : Dictionary) :
    ∃ chunks, (wordsOfAll tracks classes d).1 = chunks.flatten ∧
      List.Forall₂ (Written (width tracks)) (recordsOf tracks classes d) chunks := by
  induction classes generalizing d with
  | nil => exact ⟨[], rfl, List.Forall₂.nil⟩
  | cons e rest ih =>
    obtain ⟨chunks, hchunks, hall⟩ := ih (wordsOf tracks e d).2
    exact ⟨(wordsOf tracks e d).1 :: chunks, congrArg ((wordsOf tracks e d).1 ++ ·) hchunks,
      List.Forall₂.cons (written_wordsOf tracks e d) hall⟩

theorem exists_chunks (levels : List Nat) (g : Grouping) (d : Dictionary) :
    ∃ chunks : List (List Nat), (ofGrouping levels g d).1.words = chunks.flatten.toArray ∧
      (∀ chunk ∈ chunks, chunk.length = width g.tracks) ∧
      List.Forall₂ (Written (width g.tracks)) (recordsOf g.tracks g.classes d) chunks := by
  obtain ⟨chunks, hchunks, hall⟩ := written_wordsOfAll g.tracks g.classes d
  refine ⟨chunks, ?_, fun chunk hchunk => ?_, hall⟩
  · rw [← hchunks]
    rfl
  · obtain ⟨i, hi, rfl⟩ := List.getElem_of_mem hchunk
    exact (hall.get (i := i) (by simpa [hall.length_eq] using hi) hi).length

theorem size_words (levels : List Nat) (g : Grouping) (d : Dictionary) :
    (ofGrouping levels g d).1.words.size =
      (recordsOf g.tracks g.classes d).length * (ofGrouping levels g d).1.stride := by
  obtain ⟨chunks, hwords, hlengths, hall⟩ := exists_chunks levels g d
  rw [hwords, List.size_toArray, List.length_flatten, List.map_congr_left hlengths,
    hall.length_eq]
  simp [ofGrouping, width]

theorem length_recordsOf (tracks : Bool) (classes : List EquivalenceClass) (d : Dictionary) :
    (recordsOf tracks classes d).length = classes.length := by
  induction classes generalizing d with
  | nil => rfl
  | cons e rest ih => rw [recordsOf, List.length_cons, ih, List.length_cons]

theorem size_ofGrouping (levels : List Nat) (g : Grouping) (d : Dictionary) :
    (ofGrouping levels g d).1.size = g.size := by
  have hstride : 0 < (ofGrouping levels g d).1.stride := by
    change 0 < if g.tracks then 4 else 3
    split_ifs <;> decide
  rw [size, size_words, length_recordsOf, Nat.mul_div_cancel _ hstride]
  rfl

theorem record?_ofGrouping (levels : List Nat) (g : Grouping) (d : Dictionary) {i : Nat}
    (hi : i < (recordsOf g.tracks g.classes d).length) :
    (ofGrouping levels g d).1.record? (i * (ofGrouping levels g d).1.stride) =
      some (recordsOf g.tracks g.classes d)[i] := by
  obtain ⟨chunks, hwords, hlengths, hall⟩ := exists_chunks levels g d
  have hstride : (ofGrouping levels g d).1.stride = width g.tracks := rfl
  have hi' : i < chunks.length := by rwa [← hall.length_eq]
  refine (hall.get hi hi').reads _ _ hstride fun j hj => ?_
  rw [hwords, hstride, List.getElem?_toArray, getElem?_flatten hlengths hj,
    List.getElem?_eq_getElem hi']
  rfl

theorem records?_ofGrouping (levels : List Nat) (g : Grouping) (d : Dictionary) :
    (ofGrouping levels g d).1.records? = some (recordsOf g.tracks g.classes d) := by
  have hcount : ((ofGrouping levels g d).1.words.size + (ofGrouping levels g d).1.stride - 1) /
      (ofGrouping levels g d).1.stride = (recordsOf g.tracks g.classes d).length := by
    rw [size_words]
    have hstride : (ofGrouping levels g d).1.stride = width g.tracks := rfl
    rw [hstride]
    unfold width
    split_ifs <;> omega
  unfold records?
  rw [hcount]
  exact mapM_range fun i hi => record?_ofGrouping levels g d hi

/-! ## Restoring classes -/

/-- The records of a snapshot restore the given classes. -/
def Restores (dictionary : Dictionary) (s : Snapshot) (classes : List EquivalenceClass) :
    Prop :=
  ∃ records, s.records? = some records ∧
    List.Forall₂ (SnapshotRecord.Restores dictionary) classes records

theorem Restores.extends {d e : Dictionary} (h : d.Extends e) {s : Snapshot}
    {classes : List EquivalenceClass} (hs : s.Restores d classes) : s.Restores e classes := by
  obtain ⟨records, hrecords, hall⟩ := hs
  exact ⟨records, hrecords, hall.imp fun _ _ hr => hr.extends h⟩

theorem restores_recordOf {tracks : Bool} {e : EquivalenceClass} (he : e.Narrow tracks)
    {d : Dictionary} (hd : d.Sound) (hsize : (wordsOf tracks e d).2.size < 2 ^ 32) :
    (wordsOf tracks e d).2.Sound ∧
      (recordOf tracks e d).Restores (wordsOf tracks e d).2 e := by
  have hnumbers : ∀ dictionary : Dictionary,
      (recordOf tracks e d).distribution.map dictionary.find? = e.distribution.map some →
        (recordOf tracks e d).Restores dictionary e := fun _ hdistribution =>
    ⟨Nat.mod_eq_of_lt he.representative, Nat.mod_eq_of_lt he.count, Nat.mod_eq_of_lt he.total,
      hdistribution⟩
  cases tracks with
  | false => exact ⟨hd, hnumbers _ (by simp [recordOf, he.tracked rfl])⟩
  | true =>
    cases hdistribution : e.distribution with
    | none =>
      have hwords : (wordsOf true e d).2 = d := by simp [wordsOf, hdistribution]
      rw [hwords]
      exact ⟨hd, hnumbers _ (by simp [recordOf, hdistribution])⟩
    | some x =>
      have hwords : (wordsOf true e d).2 = (d.intern x).2 := by simp [wordsOf, hdistribution]
      rw [hwords] at hsize ⊢
      obtain ⟨hsound, hfind⟩ :=
        Dictionary.intern_spec hd (he.distribution x (by simp [hdistribution])) hsize
      have hid : (d.intern x).1 ≠ noDistribution := by
        have hlt : (d.intern x).1 < (d.intern x).2.size :=
          (List.getElem?_eq_some_iff.mp hfind).1
        unfold noDistribution
        omega
      exact ⟨hsound, hnumbers _ (by simp [recordOf, hdistribution, hid, hfind])⟩

theorem restores_recordsOf {tracks : Bool} {classes : List EquivalenceClass}
    (hc : ∀ e ∈ classes, e.Narrow tracks) {d : Dictionary} (hd : d.Sound)
    (hsize : (wordsOfAll tracks classes d).2.size < 2 ^ 32) :
    (wordsOfAll tracks classes d).2.Sound ∧ List.Forall₂
      (SnapshotRecord.Restores (wordsOfAll tracks classes d).2) classes
        (recordsOf tracks classes d) := by
  induction classes generalizing d with
  | nil => exact ⟨hd, List.Forall₂.nil⟩
  | cons e rest ih =>
    have hextends := extends_wordsOfAll tracks rest (wordsOf tracks e d).2
    obtain ⟨hsound, hrestores⟩ := restores_recordOf (hc e List.mem_cons_self) hd
      (lt_of_le_of_lt hextends.size_le hsize)
    obtain ⟨hsound, hall⟩ := ih (fun x hx => hc x (List.mem_cons_of_mem _ hx)) hsound hsize
    exact ⟨hsound, List.Forall₂.cons (hrestores.extends hextends) hall⟩

theorem restores_ofGrouping {g : Grouping} (hg : ∀ e ∈ g.classes, e.Narrow g.tracks)
    {d : Dictionary} (hd : d.Sound) (levels : List Nat)
    (hsize : (ofGrouping levels g d).2.size < 2 ^ 32) :
    (ofGrouping levels g d).2.Sound ∧
      (ofGrouping levels g d).1.Restores (ofGrouping levels g d).2 g.classes := by
  obtain ⟨hsound, hall⟩ := restores_recordsOf hg hd hsize
  exact ⟨hsound, recordsOf g.tracks g.classes d, records?_ofGrouping levels g d, hall⟩

end Snapshot

namespace Dataset

theorem sum_map_le_length {α : Type} {xs : List α} {f : α → Nat} (h : ∀ x ∈ xs, f x ≤ 1) :
    (xs.map f).sum ≤ xs.length := by
  have hsum := List.sum_le_card_nsmul (xs.map f) 1 (by simpa using h)
  simpa using hsum

theorem contribution_le_one (d : Dataset) (levels : List Nat) (row : Nat) :
    (d.contribution levels row).count ≤ 1 ∧ (d.contribution levels row).total ≤ 1 ∧
      ∀ v, Distribution.occurrences (d.contribution levels row).distribution v ≤ 1 := by
  refine ⟨Bool.toNat_le _, le_rfl, fun v => ?_⟩
  unfold contribution Contribution.ofRecord Distribution.occurrences
  cases d.sensitiveValue row with
  | none => simp
  | some value =>
    simp only [Option.map_some, Option.getD_some, Distribution.canonical_empty.frequency_add,
      Distribution.frequency_empty, Nat.zero_add]
    split_ifs
    · exact Bool.toNat_le _
    · exact Nat.zero_le 1

/-- Classes count records, so all their numbers are bounded by the number of records. -/
theorem narrow_grouping {d : Dataset} (hr : d.records < 2 ^ 32) (tracks : Bool)
    (levels : List Nat) : ∀ e ∈ (d.grouping tracks levels).classes, e.Narrow tracks := by
  intro e he
  have hrow := (exists_row_of_class he).1
  rw [grouping, Grouping.ofContributions_classes, List.mem_map] at he
  obtain ⟨key, -, rfl⟩ := he
  let cs := Grouping.withKey key (d.contributions levels)
  have hlength : cs.length < 2 ^ 32 := by
    refine lt_of_le_of_lt ((List.length_filter_le _ _).trans ?_) hr
    simp [contributions]
  have hone : ∀ c ∈ cs, c.count ≤ 1 ∧ c.total ≤ 1 ∧
      ∀ v, Distribution.occurrences c.distribution v ≤ 1 := by
    intro c hc
    obtain ⟨row, -, rfl⟩ := List.mem_map.mp (List.mem_of_mem_filter hc)
    exact d.contribution_le_one levels row
  refine ⟨hrow.trans hr, ?_, ?_, ?_, fun htracks => by simp [Grouping.classOf, htracks]⟩
  · exact lt_of_le_of_lt (sum_map_le_length fun c hc => (hone c hc).1) hlength
  · exact lt_of_le_of_lt (sum_map_le_length fun c hc => (hone c hc).2.1) hlength
  · intro x hx entry hentry
    have hcanonical : Grouping.Canonical cs :=
      (d.canonical_contributions levels _).mono (List.filter_subset_self _)
    obtain ⟨-, hjoint, hsum⟩ := Distribution.joint_spec hcanonical
    cases tracks with
    | false => cases hx
    | true =>
      have hx' : Distribution.joint (cs.map (·.distribution)) = some x := hx
      have hle : Distribution.occurrences (some x) entry.1 ≤ cs.length := by
        rw [← hx', hsum, List.map_map]
        exact sum_map_le_length fun c hc => (hone c hc).2.2 entry.1
      rw [← (hjoint x hx').frequency_eq hentry]
      exact lt_of_le_of_lt hle hlength

theorem mapM_of_forall₂ {α β γ : Type} {f : β → Option γ} {g : α → γ} {as : List α}
    {bs : List β} (h : List.Forall₂ (fun a b => f b = some (g a)) as bs) :
    bs.mapM f = some (as.map g) := by
  induction h with
  | nil => rfl
  | cons hab _ ih =>
    rw [List.mapM_cons, hab, ih]
    rfl

/-- A scan over a snapshot that restores a grouping of all records groups what the classes
of that grouping contribute. -/
theorem WellFormed.group_snapshot_eq {d : Dataset} (hd : d.WellFormed) {low high : List Nat}
    (hl : d.Admits high) {own : Bool} {s : Snapshot} {dictionary : Dictionary}
    (hs : s.Restores dictionary (d.grouping own low).classes) (tracks : Bool)
    (workers minRecords : Nat) :
    d.group? high (.snapshot s dictionary) tracks workers minRecords =
      some (.ofContributions tracks ((d.grouping own low).classes.map fun e =>
        e.contribution (d.key high e.representative))) := by
  obtain ⟨records, hrecords, hall⟩ := hs
  have hread : List.Forall₂ (fun (e : EquivalenceClass) r =>
      d.snapshotContribution? high dictionary r =
        some (e.contribution (d.key high e.representative)))
      (d.grouping own low).classes records := by
    rw [List.forall₂_iff_get] at hall ⊢
    refine ⟨hall.1, fun i hi hj => ?_⟩
    have hr := hall.2 i hi hj
    have hrow := (exists_row_of_class (List.get_mem _ ⟨i, hi⟩)).1
    rw [snapshotContribution?, hr.representative, hd.generalize_eq hrow hl, hr.count, hr.total,
      hr.find?_distribution]
    rfl
  unfold group?
  rw [if_pos rfl, scan?, hrecords, Option.bind_eq_bind, Option.bind_some, mapM_of_forall₂ hread,
    Option.map_some]

theorem WellFormed.group_snapshot {d : Dataset} (hd : d.WellFormed) {low high : List Nat}
    (hle : List.Forall₂ (· ≤ ·) low high) (hl : d.Admits high) {tracks : Bool} {s : Snapshot}
    {dictionary : Dictionary} (hs : s.Restores dictionary (d.grouping tracks low).classes)
    (workers minRecords : Nat) :
    d.group? high (.snapshot s dictionary) tracks workers minRecords =
      some (d.grouping tracks high) := by
  rw [hd.group_snapshot_eq hl hs, hd.regroup hle hl]

end Dataset
end Recoding
