import Recoding.Proofs.Grouping.Grounded
import Recoding.Proofs.Grouping.Partition

/-!
# Lookups in tables

The operations of a table once more, as strict ones: they give nothing as soon as they look up a
bucket or a slot that does not exist. On a linked table they all succeed and do what the
operations do that pass over such lookups, so that a scan into a table never misses anything.
-/

namespace Recoding

namespace Slot

/-- Chains slots if all buckets that are read exist. -/
def strictChain (index : Nat) (buckets : Array (Option Nat)) :
    List Slot → Option (Array (Option Nat) × List Slot)
  | [] => some (buckets, [])
  | s :: rest => do
    let bucket := bucketOf s.hash buckets.size
    let older ← buckets[bucket]?
    let (chained, rest) ← strictChain (index + 1) (buckets.setIfInBounds bucket (some index)) rest
    return (chained, { s with older } :: rest)

theorem getElem?_eq_headOf {buckets : Array (Option Nat)} {bucket : Nat}
    (h : bucket < buckets.size) : buckets[bucket]? = some (headOf buckets bucket) := by
  rw [headOf, Array.getElem?_eq_getElem h, Option.join_some]

theorem strictChain_eq {buckets : Array (Option Nat)} (h : 0 < buckets.size) (index : Nat)
    (slots : List Slot) : strictChain index buckets slots = some (chain index buckets slots) := by
  induction slots generalizing index buckets with
  | nil => rfl
  | cons s rest ih =>
    rw [strictChain, getElem?_eq_headOf (bucketOf_lt h s.hash)]
    dsimp only [Option.bind_eq_bind, Option.bind_some]
    rw [ih (by rwa [Array.size_setIfInBounds])]
    rfl

end Slot

namespace ClassTable
open Slot (bucketOf headOf)

/-! ## Finding -/

/-- The slot with a key among those that are chained from a slot, if all of these exist. -/
def strictSeek (t : ClassTable) (hash : UInt64) (key : List Nat) (cursor : Option Nat) :
    Option (Option Nat) :=
  match cursor with
  | none => some none
  | some i =>
    match h : t.slots[i]? with
    | none => none
    | some s =>
      have := t.acyclic.older_lt i s h
      if s.hash = hash ∧ s.entry.key = key then some (some i) else t.strictSeek hash key s.older
termination_by cursor.elim 0 (· + 1)
decreasing_by
  cases hs : s.older with
  | none => simp
  | some j => simpa using this j hs

/-- The slot of a key, if its bucket and all slots on the way exist. -/
def strictSlotOf (t : ClassTable) (hash : List Nat → UInt64) (key : List Nat) :
    Option (Option Nat) := do
  let head ← t.buckets[bucketOf (hash key) t.buckets.size]?
  t.strictSeek (hash key) key head

/-- The classes that are chained from a slot in the order of filling, if all slots exist. -/
def strictClassesFrom (t : ClassTable) (cursor : Option Nat) : Option (List EquivalenceClass) :=
  match cursor with
  | none => some []
  | some i =>
    match h : t.slots[i]? with
    | none => none
    | some s =>
      have := And.intro (Array.getElem?_eq_some_iff.mp h).1 (t.acyclic.lt_following i s h)
      (t.strictClassesFrom s.following).map (s.entry :: ·)
termination_by cursor.elim 0 (t.slots.size + 1 - ·)
decreasing_by
  obtain ⟨hi, hlt⟩ := this
  cases hs : s.following with
  | none =>
    simp
    omega
  | some j =>
    have hj := hlt j hs
    simp
    omega

/-- All classes in the order of filling, if the chain leads through existing slots. -/
def strictClasses (t : ClassTable) : Option (List EquivalenceClass) := t.strictClassesFrom t.first

/-! ## Filling -/

/-- The table over twice as many buckets, if all of them that are read exist. -/
def strictRehash (t : ClassTable) : Option ClassTable :=
  (Slot.strictChain 0 (Array.replicate (t.buckets.size * 2) none) t.slots.toList).map
    fun _ => t.rehash

/-- Fills a new slot, if its bucket and the last slot exist. -/
def strictFill (t : ClassTable) (hash : UInt64) (e : EquivalenceClass) : Option ClassTable := do
  let _ ← t.buckets[bucketOf hash t.buckets.size]?
  match t.last with
  | none => return t.fill hash e
  | some i => t.slots[i]?.map fun _ => t.fill hash e

/-- The table with the class of a slot replaced, if the slot exists. -/
def strictModify (t : ClassTable) (i : Nat) (f : EquivalenceClass → EquivalenceClass) :
    Option ClassTable :=
  t.slots[i]?.map fun _ => t.modify i f

/-- The slot of a key, with the table after a new key has got one, if no lookup misses. -/
def strictFindOrInsert (t : ClassTable) (hash : List Nat → UInt64) (key : List Nat)
    (representative : Nat) : Option (Nat × ClassTable) := do
  match ← t.strictSlotOf hash key with
  | some i => return (i, t)
  | none =>
    let t ← if t.crowded then t.strictRehash else some t
    let filled ← t.strictFill (hash key) (EquivalenceClass.unfilled key representative)
    return (t.slots.size, filled)

/-- Adds to the class with the key of the contribution, if no lookup misses. -/
def strictAdd (t : ClassTable) (hash : List Nat → UInt64) (c : Contribution) :
    Option ClassTable := do
  let (i, t) ← t.strictFindOrInsert hash c.key c.representative
  t.strictModify i (·.absorb t.tracks c)

def strictAddAll (t : ClassTable) (hash : List Nat → UInt64) (cs : List Contribution) :
    Option ClassTable :=
  cs.foldlM (fun t c => t.strictAdd hash c) t

/-- Adds every class of another table under its own key, if no lookup misses. -/
def strictMerge (t : ClassTable) (hash : List Nat → UInt64) (other : ClassTable) :
    Option ClassTable := do
  let classes ← other.strictClasses
  t.strictAddAll hash (classes.map fun e => e.contribution e.key)

/-! ## No lookup misses -/

theorem strictSeek_some {t : ClassTable} {i : Nat} {s : Slot} (h : t.slots[i]? = some s)
    (hash : UInt64) (key : List Nat) : t.strictSeek hash key (some i) =
      if s.hash = hash ∧ s.entry.key = key then some (some i)
      else t.strictSeek hash key s.older := by
  rw [strictSeek]
  split
  · simp_all
  · rename_i own hown
    obtain rfl : s = own := Option.some.inj (h.symm.trans hown)
    rfl

theorem strictClassesFrom_some {t : ClassTable} {i : Nat} {s : Slot}
    (h : t.slots[i]? = some s) : t.strictClassesFrom (some i) =
      (t.strictClassesFrom s.following).map (s.entry :: ·) := by
  rw [strictClassesFrom]
  split
  · simp_all
  · rename_i own hown
    obtain rfl : s = own := Option.some.inj (h.symm.trans hown)
    rfl

theorem strictModify_eq {t : ClassTable} {i : Nat} (h : i < t.slots.size)
    (f : EquivalenceClass → EquivalenceClass) : t.strictModify i f = some (t.modify i f) := by
  rw [strictModify, Array.getElem?_eq_getElem h, Option.map_some]

theorem strictSeek_eq (t : ClassTable) (hash : UInt64) (key : List Nat) {cursor : Option Nat}
    (h : ∀ i ∈ cursor, i < t.slots.size) :
    t.strictSeek hash key cursor = some (t.seek hash key cursor) := by
  induction hn : cursor.elim 0 (· + 1) using Nat.strong_induction_on generalizing cursor with
  | _ n ih =>
    cases cursor with
    | none => rw [strictSeek, seek_none]
    | some i =>
      obtain ⟨s, hslot⟩ : ∃ s, t.slots[i]? = some s :=
        ⟨_, Array.getElem?_eq_getElem (h i rfl)⟩
      rw [strictSeek_some hslot, seek_some hslot]
      split_ifs
      · rfl
      · have holder := t.acyclic.older_lt i s hslot
        refine ih _ ?_ (fun j hj => (holder j hj).trans (h i rfl)) rfl
        subst hn
        cases hs : s.older with
        | none => simp
        | some j => simpa using holder j hs

namespace Linked
variable {t : ClassTable} {hash : List Nat → UInt64} (h : t.Linked hash)
include h

theorem strictSlotOf_eq (key : List Nat) :
    t.strictSlotOf hash key = some (t.slotOf? hash key) := by
  rw [strictSlotOf, Slot.getElem?_eq_headOf (Slot.bucketOf_lt h.buckets_pos _)]
  exact t.strictSeek_eq (hash key) key (t.acyclic.head_lt _)

theorem strictClassesFrom_eq (i : Nat) :
    t.strictClassesFrom (Slot.placed t.slots.size i) = some (t.entries.drop i) := by
  refine h.along (motive := fun _ cursor classes => t.strictClassesFrom cursor = some classes)
    (fun _ => by rw [strictClassesFrom]) ?_ i
  intro i s behind hslot hbehind
  rw [strictClassesFrom_some hslot, hbehind, Option.map_some]

theorem strictClasses_eq : t.strictClasses = some t.classes := by
  rw [strictClasses, h.first, h.strictClassesFrom_eq, h.classes_eq, List.drop_zero]

theorem strictRehash_eq : t.strictRehash = some t.rehash := by
  have hpos : 0 < (Array.replicate (t.buckets.size * 2) (none : Option Nat)).size := by
    rw [Array.size_replicate]
    exact Nat.mul_pos h.buckets_pos Nat.two_pos
  rw [strictRehash, Slot.strictChain_eq hpos, Option.map_some]

theorem strictFill_eq (own : UInt64) (e : EquivalenceClass) :
    t.strictFill own e = some (t.fill own e) := by
  rw [strictFill, Slot.getElem?_eq_headOf (Slot.bucketOf_lt h.buckets_pos own)]
  cases hlast : t.last with
  | none => rfl
  | some i =>
    have hlt : i < t.slots.size := by
      have hsize := (h.last i).mp hlast
      omega
    dsimp only [Option.bind_eq_bind, Option.bind_some]
    rw [Array.getElem?_eq_getElem hlt, Option.map_some]

theorem strictFindOrInsert_eq (key : List Nat) (representative : Nat) :
    t.strictFindOrInsert hash key representative =
        some (t.findOrInsert hash key representative) ∧
      (t.findOrInsert hash key representative).1 <
        (t.findOrInsert hash key representative).2.slots.size := by
  have hplace := (h.findOrInsert key representative).2.2
  constructor
  · rw [strictFindOrInsert, ClassTable.findOrInsert, h.strictSlotOf_eq]
    dsimp only [Option.bind_eq_bind, Option.bind_some]
    cases t.slotOf? hash key with
    | some i => rfl
    | none =>
      dsimp only
      split_ifs
      · rw [h.strictRehash_eq, Option.bind_some, h.rehash.strictFill_eq]
        rfl
      · rw [h.strictFill_eq]
        rfl
  · rw [← length_entries]
    rcases hplace with ⟨e, he, -, hsame⟩ | ⟨-, hlast, hentries⟩
    · rw [hsame]
      exact (List.getElem?_eq_some_iff.mp he).1
    · rw [hlast, hentries, List.length_append, List.length_singleton]
      exact Nat.lt_succ_self _

theorem strictAdd_eq (c : Contribution) : t.strictAdd hash c = some (t.add hash c) := by
  obtain ⟨hfound, hlt⟩ := h.strictFindOrInsert_eq c.key c.representative
  rw [strictAdd, hfound]
  exact strictModify_eq hlt _

theorem strictAddAll_eq (cs : List Contribution) :
    t.strictAddAll hash cs = some (cs.foldl (fun t c => t.add hash c) t) := by
  induction cs generalizing t with
  | nil => rfl
  | cons c cs ih =>
    rw [strictAddAll, List.foldlM_cons, h.strictAdd_eq, Option.bind_eq_bind, Option.bind_some]
    exact ih (h.add c).1

theorem strictMerge_eq {other : ClassTable} (hother : other.Linked hash) :
    t.strictMerge hash other = some (t.merge hash other) := by
  rw [strictMerge, hother.strictClasses_eq, Option.bind_eq_bind, Option.bind_some,
    h.strictAddAll_eq, List.foldl_map]
  rfl

theorem strictMergeAll_eq {others : List ClassTable}
    (hothers : ∀ other ∈ others, other.Linked hash) :
    others.foldlM (fun t other => t.strictMerge hash other) t =
      some (others.foldl (fun t other => t.merge hash other) t) := by
  induction others generalizing t with
  | nil => rfl
  | cons other others ih =>
    obtain ⟨hother, hrest⟩ := List.forall_mem_cons.mp hothers
    rw [List.foldlM_cons, h.strictMerge_eq hother, Option.bind_eq_bind, Option.bind_some]
    exact ih (h.merge other).1 hrest

end Linked

theorem linked_ofContributions (hash : List Nat → UInt64) (capacity : Nat) (tracks : Bool)
    (cs : List Contribution) : (ofContributions hash capacity tracks cs).Linked hash :=
  ((linked_ofCapacity capacity tracks).addAll cs).1

theorem strictAddAll_ofCapacity (hash : List Nat → UInt64) (capacity : Nat) (tracks : Bool)
    (cs : List Contribution) : (ofCapacity capacity tracks).strictAddAll hash cs =
      some (ofContributions hash capacity tracks cs) :=
  (linked_ofCapacity capacity tracks).strictAddAll_eq cs

theorem exists_of_grouping {hash : List Nat → UInt64} {capacity : Nat} {tracks : Bool}
    {g : Grouping} {cs : Option (List Contribution)}
    (h : cs.map (Grouping.ofContributions tracks) = some g) : ∃ t : ClassTable,
      cs.map (ofContributions hash capacity tracks) = some t ∧ t.Linked hash ∧ t.grouping = g := by
  obtain ⟨cs, rfl, rfl⟩ := Option.map_eq_some_iff.mp h
  exact ⟨_, rfl, linked_ofContributions hash capacity tracks cs,
    grouping_ofContributions capacity tracks cs⟩

end ClassTable

/-! ## Scans -/

namespace Dataset

def strictTableOfRecords? (d : Dataset) (hash : List Nat → UInt64) (levels : List Nat)
    (tracks : Bool) (rows : List Nat) : Option ClassTable := do
  let cs ← rows.mapM (d.recordContribution? levels)
  (ClassTable.ofCapacity rows.length tracks).strictAddAll hash cs

def strictTableInParts? (d : Dataset) (hash : List Nat → UInt64) (levels : List Nat)
    (tracks : Bool) (parts : Nat) : Option ClassTable := do
  let partials ← (List.range parts).mapM fun i =>
    d.strictTableOfRecords? hash levels tracks (d.part parts i)
  match partials with
  | [] => return ClassTable.ofCapacity 0 tracks
  | first :: rest => rest.foldlM (fun t part => t.strictMerge hash part) first

/-- Everything a scan meets, in order; the classes of the previous grouping are read from the
table that it is kept in. -/
def strictScan? (d : Dataset) (levels : List Nat) (kept : Option ClassTable) :
    ScanSource → Option (List Contribution)
  | .classes _ => do
    let t ← kept
    let classes ← t.strictClasses
    classes.mapM (d.classContribution? levels)
  | source => d.scan? levels source

def strictTable? (d : Dataset) (hash : List Nat → UInt64) (levels : List Nat)
    (source : ScanSource) (kept : Option ClassTable) (tracks : Bool) (workers minRecords : Nat) :
    Option ClassTable :=
  let parts := match source with
    | .records => d.partCount workers minRecords
    | _ => 1
  if parts = 1 then do
    let cs ← d.strictScan? levels kept source
    (ClassTable.ofCapacity (source.capacity d) tracks).strictAddAll hash cs
  else d.strictTableInParts? hash levels tracks parts

section
variable (d : Dataset) (hash : List Nat → UInt64) (levels : List Nat) (tracks : Bool)

theorem strictTableOfRecords?_eq (rows : List Nat) :
    d.strictTableOfRecords? hash levels tracks rows =
      d.tableOfRecords? hash levels tracks rows := by
  unfold strictTableOfRecords? tableOfRecords?
  cases rows.mapM (d.recordContribution? levels) with
  | none => rfl
  | some cs => exact ClassTable.strictAddAll_ofCapacity hash rows.length tracks cs

theorem linked_tableOfRecords {rows : List Nat} {t : ClassTable}
    (h : d.tableOfRecords? hash levels tracks rows = some t) : t.Linked hash := by
  obtain ⟨cs, -, rfl⟩ := Option.map_eq_some_iff.mp h
  exact ClassTable.linked_ofContributions hash _ tracks cs

theorem strictTableInParts?_eq (parts : Nat) : d.strictTableInParts? hash levels tracks parts =
    d.tableInParts? hash levels tracks parts := by
  unfold strictTableInParts? tableInParts?
  simp only [strictTableOfRecords?_eq]
  cases hparts : (List.range parts).mapM fun i =>
      d.tableOfRecords? hash levels tracks (d.part parts i) with
  | none => rfl
  | some made =>
    have hlinked : ∀ t ∈ made, t.Linked hash := by
      intro t ht
      have hall := forall₂_mapM_some hparts
      obtain ⟨i, hi, rfl⟩ := List.getElem_of_mem ht
      exact d.linked_tableOfRecords hash levels tracks (hall.get (hall.length_eq ▸ hi) hi)
    cases made with
    | nil => rfl
    | cons first rest =>
      obtain ⟨hfirst, hrest⟩ := List.forall_mem_cons.mp hlinked
      exact hfirst.strictMergeAll_eq hrest

/-- A scan into a table misses nothing but records, levels and values that do not exist. -/
theorem strictTable?_eq {source : ScanSource} {kept : Option ClassTable}
    (hkept : ∀ g, source = .classes g → ∃ t ∈ kept, t.Linked hash ∧ t.grouping = g)
    (workers minRecords : Nat) :
    d.strictTable? hash levels source kept tracks workers minRecords =
      d.table? hash levels source tracks workers minRecords := by
  have hscan : d.strictScan? levels kept source = d.scan? levels source := by
    cases source with
    | records => rfl
    | snapshot s dictionary => rfl
    | classes g =>
      obtain ⟨t, ht, hlinked, rfl⟩ := hkept g rfl
      rw [strictScan?, Option.mem_def.mp ht, Option.bind_eq_bind, Option.bind_some,
        hlinked.strictClasses_eq]
      rfl
  have hwhole : (do
      let cs ← d.strictScan? levels kept source
      (ClassTable.ofCapacity (source.capacity d) tracks).strictAddAll hash cs) =
        (d.scan? levels source).map
          (ClassTable.ofContributions hash (source.capacity d) tracks) := by
    rw [hscan]
    cases d.scan? levels source with
    | none => rfl
    | some cs => exact ClassTable.strictAddAll_ofCapacity hash _ tracks cs
  cases source with
  | records =>
    unfold strictTable? table?
    dsimp only
    rw [hwhole, strictTableInParts?_eq]
  | classes g => exact hwhole
  | snapshot s dictionary => exact hwhole

end

/-- A scan of what stands for existing records makes a table of existing records, and no lookup
misses on the way. -/
theorem WellFormed.exists_strictTable {d : Dataset} (hd : d.WellFormed) {levels : List Nat}
    (hl : d.Admits levels) (hash : List Nat → UInt64) {source : ScanSource}
    (hs : source.Grounded d.records) {kept : Option ClassTable}
    (hkept : ∀ g, source = .classes g → ∃ t ∈ kept, t.Linked hash ∧ t.grouping = g)
    (tracks : Bool) (workers minRecords : Nat) : ∃ t : ClassTable,
      d.strictTable? hash levels source kept tracks workers minRecords = some t ∧
      t.Linked hash ∧ d.group? levels source tracks workers minRecords = some t.grouping ∧
      t.grouping.Grounded d.records ∧ t.grouping.Wide d.hierarchies.length := by
  obtain ⟨g, hgroup, hgrounded, hwide⟩ := hd.group_grounded hl hs tracks workers minRecords
  have htable : ∃ t : ClassTable, d.table? hash levels source tracks workers minRecords = some t ∧
      t.Linked hash ∧ t.grouping = g := by
    cases source with
    | records =>
      obtain ⟨t, cs, htable, hbuilt, -, hown⟩ := hd.exists_table hl hash tracks workers minRecords
      exact ⟨t, htable, hbuilt.holding.linked, Option.some.inj (hown.symm.trans hgroup)⟩
    | classes before => exact ClassTable.exists_of_grouping hgroup
    | snapshot s dictionary => exact ClassTable.exists_of_grouping hgroup
  obtain ⟨t, htable, hlinked, rfl⟩ := htable
  refine ⟨t, ?_, hlinked, hgroup, hgrounded, hwide⟩
  rw [d.strictTable?_eq hash levels tracks hkept, htable]

end Dataset
end Recoding
