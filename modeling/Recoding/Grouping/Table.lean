import Recoding.Binary64.Exact
import Recoding.Grouping.Scan

/-!
# Groupings in hash tables

A grouping that finds its classes by the hash of their keys. Every class has a slot that is
never moved. The slots of one bucket are chained from the youngest to the oldest, and all
slots are chained once more in the order in which they were filled. When the table gets
crowded, its slots are chained anew over twice as many buckets.

Links within a bucket lead to older slots and links in the order of filling to younger
ones, so following them comes to an end. The hash function is a parameter.
-/

namespace Recoding

/-- A class with the links that lead on from it. -/
structure Slot where
  entry : EquivalenceClass
  hash : UInt64
  /-- The next older slot of the bucket. -/
  older : Option Nat
  /-- The slot that was filled next. -/
  following : Option Nat
deriving DecidableEq, Repr

namespace Slot

def headOf (buckets : Array (Option Nat)) (bucket : Nat) : Option Nat := buckets[bucket]?.join

/-- Every link leads to a slot on the right side. -/
structure Acyclic (buckets : Array (Option Nat)) (slots : Array Slot) : Prop where
  head_lt : ∀ bucket : Nat, ∀ i ∈ headOf buckets bucket, i < slots.size
  older_lt : ∀ (i : Nat) (s : Slot), slots[i]? = some s → ∀ j ∈ s.older, j < i
  lt_following : ∀ (i : Nat) (s : Slot), slots[i]? = some s → ∀ j ∈ s.following, i < j

/-- The bucket of a hash; their number is a power of two. -/
def bucketOf (hash : UInt64) (buckets : Nat) : Nat := hash.toNat &&& (buckets - 1)

theorem acyclic_empty (buckets : Nat) : Acyclic (Array.replicate buckets none) #[] where
  head_lt bucket i h := by
    rw [headOf, Array.getElem?_replicate] at h
    split at h <;> cases h
  older_lt i s h := by simp at h
  lt_following i s h := by simp at h

theorem Acyclic.map {buckets : Array (Option Nat)} {slots others : Array Slot}
    (h : Acyclic buckets slots) (hsize : others.size = slots.size)
    (hlinks : ∀ (i : Nat) (s : Slot), others[i]? = some s → ∃ own, slots[i]? = some own ∧
      own.older = s.older ∧ own.following = s.following) : Acyclic buckets others where
  head_lt bucket i hi := hsize ▸ h.head_lt bucket i hi
  older_lt i s hs j hj := by
    obtain ⟨own, hown, holder, -⟩ := hlinks i s hs
    exact h.older_lt i own hown j (holder ▸ hj)
  lt_following i s hs j hj := by
    obtain ⟨own, hown, -, hfollowing⟩ := hlinks i s hs
    exact h.lt_following i own hown j (hfollowing ▸ hj)

theorem headOf_set {index : Nat} {buckets : Array (Option Nat)}
    (h : ∀ bucket : Nat, ∀ i ∈ headOf buckets bucket, i < index) (place : Nat) :
    ∀ bucket : Nat, ∀ i ∈ headOf (buckets.setIfInBounds place (some index)) bucket,
      i < index + 1 := by
  intro bucket i hi
  rw [headOf, Array.getElem?_setIfInBounds] at hi
  split at hi
  · split at hi <;> cases hi
    exact Nat.lt_succ_self _
  · exact Nat.lt_succ_of_lt (h bucket i hi)

/-! ## Chaining -/

/-- Chains slots within their buckets, from the oldest one on; `index` is the place of the
first of them. -/
def chain (index : Nat) (buckets : Array (Option Nat)) :
    List Slot → Array (Option Nat) × List Slot
  | [] => (buckets, [])
  | s :: rest =>
    let bucket := bucketOf s.hash buckets.size
    let (chained, rest) := chain (index + 1) (buckets.setIfInBounds bucket (some index)) rest
    (chained, { s with older := headOf buckets bucket } :: rest)

section
variable {index : Nat} {buckets : Array (Option Nat)}

@[simp] theorem size_chain (slots : List Slot) :
    (chain index buckets slots).1.size = buckets.size := by
  induction slots generalizing index buckets with
  | nil => rfl
  | cons s rest ih => simp [chain, ih]

/-- Chaining changes nothing but the links within the buckets. -/
theorem map_chain {α : Type} {f : Slot → α} (hf : ∀ s older, f { s with older } = f s)
    (slots : List Slot) : (chain index buckets slots).2.map f = slots.map f := by
  induction slots generalizing index buckets with
  | nil => rfl
  | cons s rest ih => simp [chain, hf, ih]

@[simp] theorem length_chain (slots : List Slot) :
    (chain index buckets slots).2.length = slots.length := by
  simpa using congrArg List.length (map_chain (f := fun _ => ()) (fun _ _ => rfl) slots)

theorem exists_of_chain {α : Type} {f : Slot → α} (hf : ∀ s older, f { s with older } = f s)
    {slots : List Slot} {k : Nat} {s : Slot} (h : (chain index buckets slots).2[k]? = some s) :
    ∃ own, slots[k]? = some own ∧ f own = f s := by
  have hframe : (chain index buckets slots).2.map f = slots.map f := map_chain hf slots
  simpa [h] using (congrArg (·[k]?) hframe).symm

theorem chain_lt (h : ∀ bucket : Nat, ∀ i ∈ headOf buckets bucket, i < index)
    (slots : List Slot) :
    (∀ bucket : Nat, ∀ i ∈ headOf (chain index buckets slots).1 bucket,
      i < index + slots.length) ∧
      ∀ (k : Nat) (s : Slot), (chain index buckets slots).2[k]? = some s →
        ∀ j ∈ s.older, j < index + k := by
  induction slots generalizing index buckets with
  | nil => exact ⟨h, fun k s hs => by simp [chain] at hs⟩
  | cons first rest ih =>
    obtain ⟨hhead, holder⟩ := ih (headOf_set h (bucketOf first.hash buckets.size))
    refine ⟨fun bucket i hi => ?_, fun k s hs j hj => ?_⟩
    · have hlt := hhead bucket i hi
      rw [List.length_cons]
      omega
    · cases k with
      | zero =>
        cases hs
        exact h _ j hj
      | succ k =>
        have hlt := holder k s hs j hj
        omega

end

theorem Acyclic.chain {buckets : Array (Option Nat)} {slots : Array Slot}
    (h : Acyclic buckets slots) (size : Nat) :
    Acyclic (Slot.chain 0 (Array.replicate size none) slots.toList).1
      (Slot.chain 0 (Array.replicate size none) slots.toList).2.toArray := by
  obtain ⟨hhead, holder⟩ := chain_lt (acyclic_empty size).head_lt slots.toList
  refine ⟨fun bucket i hi => ?_, fun i s hs j hj => ?_, fun i s hs j hj => ?_⟩
  · have hlt := hhead bucket i hi
    simpa using hlt
  · have hlt := holder i s (by simpa using hs) j hj
    simpa using hlt
  · obtain ⟨own, hown, hfollowing⟩ := exists_of_chain (f := following) (fun _ _ => rfl)
      (by simpa using hs : (Slot.chain 0 (Array.replicate size none) slots.toList).2[i]? = some s)
    exact h.lt_following i own (by simpa using hown) j (hfollowing ▸ hj)

/-- The slots with the last one linked to the one that is filled next. -/
def linkLast (slots : Array Slot) : Option Nat → Array Slot
  | none => slots
  | some i => slots.modify i fun s => { s with following := some slots.size }

@[simp] theorem size_linkLast (slots : Array Slot) (last : Option Nat) :
    (linkLast slots last).size = slots.size := by
  cases last <;> simp [linkLast]

theorem getElem?_linkLast (slots : Array Slot) (last : Option Nat) (i : Nat) :
    (linkLast slots last)[i]? = slots[i]?.map fun s =>
      if last = some i then { s with following := some slots.size } else s := by
  cases last with
  | none => simp [linkLast]
  | some place =>
    rw [linkLast, Array.getElem?_modify]
    by_cases h : place = i <;> simp [h]

theorem Acyclic.fill {buckets : Array (Option Nat)} {slots : Array Slot}
    (h : Acyclic buckets slots) (last : Option Nat) (bucket : Nat) (hash : UInt64)
    (e : EquivalenceClass) :
    Acyclic (buckets.setIfInBounds bucket (some slots.size))
      ((linkLast slots last).push ⟨e, hash, headOf buckets bucket, none⟩) := by
  refine ⟨fun place i hi => ?_, fun i s hs j hj => ?_, fun i s hs j hj => ?_⟩
  · have hlt := headOf_set h.head_lt bucket place i hi
    simpa using hlt
  · rw [Array.getElem?_push, size_linkLast] at hs
    split at hs
    · cases hs
      rename_i hi
      exact hi ▸ h.head_lt bucket j hj
    · rw [getElem?_linkLast] at hs
      obtain ⟨own, hown, rfl⟩ := Option.map_eq_some_iff.mp hs
      refine h.older_lt i own hown j ?_
      split at hj <;> exact hj
  · rw [Array.getElem?_push, size_linkLast] at hs
    split at hs
    · cases hs
      cases hj
    · rw [getElem?_linkLast] at hs
      obtain ⟨own, hown, rfl⟩ := Option.map_eq_some_iff.mp hs
      split at hj
      · cases hj
        exact (Array.getElem?_eq_some_iff.mp hown).1
      · exact h.lt_following i own hown j hj

end Slot

/-- Equivalence classes that are found by the hash of their keys. -/
structure ClassTable where
  tracks : Bool
  /-- The youngest slot of every bucket. -/
  buckets : Array (Option Nat)
  slots : Array Slot
  first : Option Nat
  last : Option Nat
  acyclic : Slot.Acyclic buckets slots
deriving DecidableEq, Repr

namespace ClassTable
open Slot (bucketOf headOf)

/-- Enough buckets for so many classes to fill three quarters of them. -/
def initialBuckets (capacity : Nat) : Nat :=
  nextPower (max 64 (Binary64.ofCount capacity / 0.75).toUInt64.toNat)

/-- An empty table for roughly so many classes. -/
def ofCapacity (capacity : Nat) (tracks : Bool) : ClassTable where
  tracks := tracks
  buckets := Array.replicate (initialBuckets capacity) none
  slots := #[]
  first := none
  last := none
  acyclic := Slot.acyclic_empty _

/-! ## Finding -/

def seek (t : ClassTable) (hash : UInt64) (key : List Nat) (cursor : Option Nat) : Option Nat :=
  match cursor with
  | none => none
  | some i =>
    match h : t.slots[i]? with
    | none => none
    | some s =>
      have := t.acyclic.older_lt i s h
      if s.hash = hash ∧ s.entry.key = key then some i else t.seek hash key s.older
termination_by cursor.elim 0 (· + 1)
decreasing_by
  cases hs : s.older with
  | none => simp
  | some j => simpa using this j hs

@[simp] theorem seek_none (t : ClassTable) (hash : UInt64) (key : List Nat) :
    t.seek hash key none = none := by
  rw [seek]

theorem seek_some {t : ClassTable} {i : Nat} {s : Slot} (h : t.slots[i]? = some s)
    (hash : UInt64) (key : List Nat) : t.seek hash key (some i) =
      if s.hash = hash ∧ s.entry.key = key then some i else t.seek hash key s.older := by
  rw [seek]
  split
  · simp_all
  · rename_i own hown
    obtain rfl : s = own := Option.some.inj (h.symm.trans hown)
    rfl

def slotOf? (t : ClassTable) (hash : List Nat → UInt64) (key : List Nat) : Option Nat :=
  t.seek (hash key) key (headOf t.buckets (bucketOf (hash key) t.buckets.size))

def find? (t : ClassTable) (hash : List Nat → UInt64) (key : List Nat) :
    Option EquivalenceClass :=
  (t.slotOf? hash key).bind fun i => t.slots[i]?.map (·.entry)

/-- The classes that are chained from a slot in the order of filling. -/
def classesFrom (t : ClassTable) (cursor : Option Nat) : List EquivalenceClass :=
  match cursor with
  | none => []
  | some i =>
    match h : t.slots[i]? with
    | none => []
    | some s =>
      have := And.intro (Array.getElem?_eq_some_iff.mp h).1 (t.acyclic.lt_following i s h)
      s.entry :: t.classesFrom s.following
termination_by cursor.elim 0 (t.slots.size + 1 - ·)
decreasing_by
  obtain ⟨hi, hlt⟩ := this
  cases hs : s.following with
  | none =>
    simp
    omega
  | some j =>
    have hj := hlt j hs
    simp
    omega

@[simp] theorem classesFrom_none (t : ClassTable) : t.classesFrom none = [] := by
  rw [classesFrom]

theorem classesFrom_some {t : ClassTable} {i : Nat} {s : Slot} (h : t.slots[i]? = some s) :
    t.classesFrom (some i) = s.entry :: t.classesFrom s.following := by
  rw [classesFrom]
  split
  · simp_all
  · rename_i own hown
    obtain rfl : s = own := Option.some.inj (h.symm.trans hown)
    rfl

def classes (t : ClassTable) : List EquivalenceClass := t.classesFrom t.first

def grouping (t : ClassTable) : Grouping := ⟨t.tracks, t.classes⟩

def size (t : ClassTable) : Nat := t.slots.size

def totalCount (t : ClassTable) : Nat := (t.slots.toList.map (·.entry.count)).sum

def totalRecords (t : ClassTable) : Nat := (t.slots.toList.map (·.entry.total)).sum

/-! ## Filling -/

/-- Whether one more class would fill more than three quarters of the buckets. -/
def crowded (t : ClassTable) : Bool :=
  Binary64.ofCount t.buckets.size * 0.75 < Binary64.ofCount (t.slots.size + 1)

/-- The same slots, chained over twice as many buckets. -/
def rehash (t : ClassTable) : ClassTable :=
  let chained := Slot.chain 0 (Array.replicate (t.buckets.size * 2) none) t.slots.toList
  { t with
    buckets := chained.1
    slots := chained.2.toArray
    acyclic := t.acyclic.chain _ }

def fill (t : ClassTable) (hash : UInt64) (e : EquivalenceClass) : ClassTable :=
  let bucket := bucketOf hash t.buckets.size
  { t with
    buckets := t.buckets.setIfInBounds bucket (some t.slots.size)
    slots := (Slot.linkLast t.slots t.last).push ⟨e, hash, headOf t.buckets bucket, none⟩
    first := t.first.or (some t.slots.size)
    last := some t.slots.size
    acyclic := t.acyclic.fill t.last bucket hash e }

def modify (t : ClassTable) (i : Nat) (f : EquivalenceClass → EquivalenceClass) : ClassTable :=
  { t with
    slots := t.slots.modify i fun s => { s with entry := f s.entry }
    acyclic := t.acyclic.map (by simp) fun place s hs => by
      rw [Array.getElem?_modify] at hs
      split at hs
      · obtain ⟨own, hown, rfl⟩ := Option.map_eq_some_iff.mp hs
        exact ⟨own, hown, rfl, rfl⟩
      · exact ⟨s, hs, rfl, rfl⟩ }

/-- The slot of a key, with the table after a new key has got one. -/
def findOrInsert (t : ClassTable) (hash : List Nat → UInt64) (key : List Nat)
    (representative : Nat) : Nat × ClassTable :=
  match t.slotOf? hash key with
  | some i => (i, t)
  | none =>
    let t := if t.crowded then t.rehash else t
    (t.slots.size, t.fill (hash key) (EquivalenceClass.unfilled key representative))

def add (t : ClassTable) (hash : List Nat → UInt64) (c : Contribution) : ClassTable :=
  let (i, t) := t.findOrInsert hash c.key c.representative
  t.modify i (·.absorb t.tracks c)

def merge (t : ClassTable) (hash : List Nat → UInt64) (other : ClassTable) : ClassTable :=
  other.classes.foldl (fun t e => t.add hash (e.contribution e.key)) t

def ofContributions (hash : List Nat → UInt64) (capacity : Nat) (tracks : Bool)
    (cs : List Contribution) : ClassTable :=
  cs.foldl (fun t c => t.add hash c) (ofCapacity capacity tracks)

end ClassTable

/-! ## Scans -/

/-- As many classes as a scan can find at most. -/
def ScanSource.capacity (d : Dataset) : ScanSource → Nat
  | .records => d.records
  | .classes g => g.size
  | .snapshot s _ => s.size

namespace Dataset

def tableOfRecords? (d : Dataset) (hash : List Nat → UInt64) (levels : List Nat)
    (tracks : Bool) (rows : List Nat) : Option ClassTable :=
  (rows.mapM (d.recordContribution? levels)).map
    (ClassTable.ofContributions hash rows.length tracks)

/-- The table of all records, scanned in parts whose tables are merged in order. -/
def tableInParts? (d : Dataset) (hash : List Nat → UInt64) (levels : List Nat)
    (tracks : Bool) (parts : Nat) : Option ClassTable := do
  let partials ← (List.range parts).mapM fun i =>
    d.tableOfRecords? hash levels tracks (d.part parts i)
  match partials with
  | [] => return ClassTable.ofCapacity 0 tracks
  | first :: rest => return rest.foldl (fun t part => t.merge hash part) first

/-- The table of what a scan visits. Only a scan of all records is split into parts. -/
def table? (d : Dataset) (hash : List Nat → UInt64) (levels : List Nat) (source : ScanSource)
    (tracks : Bool) (workers minRecords : Nat) : Option ClassTable :=
  let parts := match source with
    | .records => d.partCount workers minRecords
    | _ => 1
  if parts = 1 then
    (d.scan? levels source).map
      (ClassTable.ofContributions hash (source.capacity d) tracks)
  else d.tableInParts? hash levels tracks parts

end Dataset
end Recoding
