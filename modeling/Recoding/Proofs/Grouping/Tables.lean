import Recoding.Grouping.Table
import Recoding.Proofs.Grouping.Scans

/-!
# Tables and groupings

A table answers like the list of its classes. Every bucket starts with its youngest slot and
every slot leads on to the next older one of its bucket, so the slot of a key is met if there
is one. Neither filling a slot nor chaining all slots anew breaks these links, whatever the
hash function is and whenever the table grows.
-/

namespace Recoding

/-- The greatest number below a bound with a property. -/
def youngest (p : Nat → Bool) : Nat → Option Nat
  | 0 => none
  | n + 1 => if p n then some n else youngest p n

theorem youngest_congr {p q : Nat → Bool} {n : Nat} (h : ∀ i < n, p i = q i) :
    youngest p n = youngest q n := by
  induction n with
  | zero => rfl
  | succ n ih =>
    rw [youngest, youngest, h n (Nat.lt_succ_self n),
      ih fun i hi => h i (Nat.lt_succ_of_lt hi)]

theorem youngest_eq_none {p : Nat → Bool} {n : Nat} (h : youngest p n = none) :
    ∀ i < n, p i = false := by
  induction n with
  | zero => exact fun i hi => absurd hi (Nat.not_lt_zero i)
  | succ n ih =>
    rw [youngest] at h
    split_ifs at h with hp
    intro i hi
    rcases Nat.lt_succ_iff_lt_or_eq.mp hi with hi | rfl
    · exact ih h i hi
    · simpa using hp

theorem youngest_spec {p : Nat → Bool} {n i : Nat} (h : youngest p n = some i) :
    i < n ∧ p i = true := by
  induction n with
  | zero => cases h
  | succ n ih =>
    rw [youngest] at h
    split_ifs at h with hp
    · cases h
      exact ⟨Nat.lt_succ_self _, hp⟩
    · exact ⟨Nat.lt_succ_of_lt (ih h).1, (ih h).2⟩

namespace Slot

theorem bucketOf_lt {buckets : Nat} (h : 0 < buckets) (hash : UInt64) :
    bucketOf hash buckets < buckets := by
  have hle : bucketOf hash buckets ≤ buckets - 1 := Nat.and_le_right
  omega

theorem headOf_replicate (size bucket : Nat) :
    headOf (Array.replicate size none) bucket = none := by
  rw [headOf, Array.getElem?_replicate]
  split_ifs <;> rfl

theorem headOf_setIfInBounds {buckets : Array (Option Nat)} {place : Nat}
    (h : place < buckets.size) (i bucket : Nat) :
    headOf (buckets.setIfInBounds place (some i)) bucket =
      if place = bucket then some i else headOf buckets bucket := by
  rw [headOf, Array.getElem?_setIfInBounds]
  by_cases hb : place = bucket
  · subst hb
    simp [h]
  · simp [hb, headOf]

def lies (slots : Array Slot) (buckets bucket i : Nat) : Bool :=
  slots[i]?.any fun s => bucketOf s.hash buckets = bucket

theorem lies_congr {slots others : Array Slot} {i : Nat}
    (h : others[i]?.map hash = slots[i]?.map hash) (buckets bucket : Nat) :
    lies others buckets bucket i = lies slots buckets bucket i := by
  unfold lies
  cases hs : slots[i]? with
  | none => simp_all
  | some s =>
    obtain ⟨own, hown, hhash⟩ := Option.map_eq_some_iff.mp (h.trans (by rw [hs, Option.map_some]))
    simp [hown, hhash]

/-- Buckets start with their youngest slots, and slots lead on to the next older ones. -/
structure Chained (buckets : Array (Option Nat)) (slots : Array Slot) : Prop where
  head : ∀ bucket < buckets.size,
    headOf buckets bucket = youngest (lies slots buckets.size bucket) slots.size
  older : ∀ (i : Nat) (s : Slot), slots[i]? = some s →
    s.older = youngest (lies slots buckets.size (bucketOf s.hash buckets.size)) i

theorem chained_empty (size : Nat) : Chained (Array.replicate size none) #[] where
  head bucket _ := headOf_replicate size bucket
  older i s h := by simp at h

theorem Chained.map {buckets : Array (Option Nat)} {slots others : Array Slot}
    (h : Chained buckets slots) (hsize : others.size = slots.size)
    (hlinks : ∀ i : Nat, others[i]?.map (fun s => (s.hash, s.older)) =
      slots[i]?.map fun s => (s.hash, s.older)) : Chained buckets others := by
  have hhash : ∀ i : Nat, others[i]?.map hash = slots[i]?.map hash := by
    intro i
    simpa [Option.map_map, Function.comp_def] using congrArg (Option.map Prod.fst) (hlinks i)
  have hlies : lies others = lies slots := by
    funext size bucket i
    exact lies_congr (hhash i) size bucket
  refine ⟨fun bucket hb => ?_, fun i s hs => ?_⟩
  · rw [hlies, hsize, h.head bucket hb]
  · have hown := hlinks i
    rw [hs] at hown
    obtain ⟨own, hslot, heq⟩ := Option.map_eq_some_iff.mp hown.symm
    obtain ⟨hsame, holder⟩ := Prod.mk.inj heq
    rw [hlies, ← hsame, ← h.older i own hslot, holder]

theorem Chained.push {buckets : Array (Option Nat)} {slots : Array Slot}
    (h : Chained buckets slots) (hpos : 0 < buckets.size) {s : Slot}
    (holder : s.older = headOf buckets (bucketOf s.hash buckets.size)) :
    Chained (buckets.setIfInBounds (bucketOf s.hash buckets.size) (some slots.size))
      (slots.push s) := by
  have hplace := bucketOf_lt hpos s.hash
  have hlies : ∀ bucket, ∀ i < slots.size,
      lies (slots.push s) buckets.size bucket i = lies slots buckets.size bucket i := by
    intro bucket i hi
    apply lies_congr
    rw [Array.getElem?_push, if_neg hi.ne]
  refine ⟨fun bucket hb => ?_, fun i own hown => ?_⟩
  · rw [Array.size_setIfInBounds] at hb ⊢
    have hlast : lies (slots.push s) buckets.size bucket slots.size =
        decide (bucketOf s.hash buckets.size = bucket) := by simp [lies]
    rw [headOf_setIfInBounds hplace, Array.size_push, youngest, hlast,
      youngest_congr (hlies bucket), ← h.head bucket hb]
    simp
  · rw [Array.size_setIfInBounds]
    rw [Array.getElem?_push] at hown
    split_ifs at hown with hi
    · cases hown
      rw [hi, youngest_congr (hlies _), ← h.head _ hplace, holder]
    · have hlt : i < slots.size := (Array.getElem?_eq_some_iff.mp hown).1
      rw [youngest_congr fun j hj => hlies _ j (hj.trans hlt), ← h.older i own hown]

/-- Chaining goes on from links that are right so far. -/
theorem chain_youngest (slots : Array Slot) {size : Nat} (hpos : 0 < size) (rest : List Slot)
    (index : Nat) {buckets : Array (Option Nat)} (hsize : buckets.size = size)
    (hrest : ∀ k : Nat, rest[k]? = slots[index + k]?)
    (hhead : ∀ bucket < size, headOf buckets bucket = youngest (lies slots size bucket) index) :
    (∀ bucket < size, headOf (chain index buckets rest).1 bucket =
        youngest (lies slots size bucket) (index + rest.length)) ∧
      ∀ (k : Nat) (s : Slot), (chain index buckets rest).2[k]? = some s →
        s.older = youngest (lies slots size (bucketOf s.hash size)) (index + k) := by
  induction rest generalizing index buckets with
  | nil => exact ⟨hhead, fun k s hs => by simp [chain] at hs⟩
  | cons first rest ih =>
    have hplace : bucketOf first.hash buckets.size < buckets.size :=
      bucketOf_lt (hsize ▸ hpos) first.hash
    have hfirst : slots[index]? = some first := (hrest 0).symm
    have hnext : ∀ bucket < size,
        headOf (buckets.setIfInBounds (bucketOf first.hash buckets.size) (some index)) bucket =
          youngest (lies slots size bucket) (index + 1) := by
      intro bucket hb
      have hlies : lies slots size bucket index = decide (bucketOf first.hash size = bucket) := by
        simp [lies, hfirst]
      rw [headOf_setIfInBounds hplace, youngest, hlies, ← hhead bucket hb, hsize]
      simp
    have htail : ∀ k : Nat, rest[k]? = slots[index + 1 + k]? := by
      intro k
      rw [Nat.add_assoc, Nat.add_comm 1 k, ← hrest (k + 1), List.getElem?_cons_succ]
    obtain ⟨hheads, holder⟩ :=
      ih (index + 1) (by rw [Array.size_setIfInBounds, hsize]) htail hnext
    constructor
    · intro bucket hb
      rw [List.length_cons, ← Nat.add_assoc, Nat.add_right_comm]
      exact hheads bucket hb
    · intro k s hs
      cases k with
      | zero =>
        cases hs
        change headOf buckets (bucketOf first.hash buckets.size) = _
        rw [hsize]
        exact hhead _ (bucketOf_lt hpos first.hash)
      | succ k =>
        rw [Nat.add_comm k 1, ← Nat.add_assoc]
        exact holder k s hs

theorem chained_chain (slots : Array Slot) {size : Nat} (hpos : 0 < size) :
    Chained (chain 0 (Array.replicate size none) slots.toList).1
      (chain 0 (Array.replicate size none) slots.toList).2.toArray := by
  obtain ⟨hhead, holder⟩ := chain_youngest slots hpos slots.toList 0 Array.size_replicate
    (fun k => by simp) (fun bucket _ => headOf_replicate size bucket)
  have hlies : ∀ buckets bucket i,
      lies (chain 0 (Array.replicate size none) slots.toList).2.toArray buckets bucket i =
        lies slots buckets bucket i := by
    intro buckets bucket i
    apply lies_congr
    have hframe : (chain 0 (Array.replicate size none) slots.toList).2.map hash =
      slots.toList.map hash := map_chain (fun _ _ => rfl) _
    simpa using congrArg (·[i]?) hframe
  refine ⟨fun bucket hb => ?_, fun i s hs => ?_⟩
  · rw [size_chain, Array.size_replicate] at hb ⊢
    rw [hhead bucket hb, youngest_congr fun i _ => hlies size bucket i]
    simp
  · rw [size_chain, Array.size_replicate, holder i s (by simpa using hs), Nat.zero_add,
      youngest_congr fun j _ => hlies size _ j]

def placed (size i : Nat) : Option Nat := if i < size then some i else none

end Slot

namespace Grouping
variable {tracks : Bool} {c : Contribution} {classes : List EquivalenceClass}

theorem addTo_eq_modify (hdistinct : (classes.map (·.key)).Nodup) {i : Nat}
    {e : EquivalenceClass} (he : classes[i]? = some e) (hkey : e.key = c.key) :
    addTo tracks c classes = classes.modify i (·.absorb tracks c) := by
  induction classes generalizing i with
  | nil => cases he
  | cons first rest ih =>
    obtain ⟨hfirst, hrest⟩ := List.nodup_cons.mp hdistinct
    cases i with
    | zero =>
      cases he
      simp [addTo, hkey]
    | succ i =>
      have hne : first.key ≠ c.key := by
        intro heq
        apply hfirst
        exact List.mem_map.mpr ⟨e, List.mem_of_getElem? he, hkey.trans heq.symm⟩
      simp [addTo, hne, ih hrest he]

/-- A contribution under a new key makes a new class at the end. -/
theorem addTo_eq_append (hnew : c.key ∉ classes.map (·.key)) :
    addTo tracks c classes =
      classes ++ [(EquivalenceClass.unfilled c.key c.representative).absorb tracks c] := by
  induction classes with
  | nil => rfl
  | cons first rest ih =>
    rw [List.map_cons, List.mem_cons, not_or] at hnew
    rw [addTo, if_neg fun heq => hnew.1 heq.symm, ih hnew.2, List.cons_append]

theorem find?_eq_some (hdistinct : (classes.map (·.key)).Nodup) {e : EquivalenceClass}
    (he : e ∈ classes) : classes.find? (·.key = e.key) = some e := by
  cases hf : classes.find? (·.key = e.key) with
  | none => exact absurd (List.find?_eq_none.mp hf e he) (by simp)
  | some found =>
    have hkey : found.key = e.key := by simpa using List.find?_some hf
    rw [List.inj_on_of_nodup_map hdistinct (List.mem_of_find?_eq_some hf) he hkey]

end Grouping

namespace ClassTable
open Slot

def entries (t : ClassTable) : List EquivalenceClass := t.slots.toList.map (·.entry)

theorem getElem?_entries (t : ClassTable) (i : Nat) :
    t.entries[i]? = t.slots[i]?.map (·.entry) := by
  simp [entries]

@[simp] theorem length_entries (t : ClassTable) : t.entries.length = t.slots.size := by
  simp [entries]

/-- All links of a table are as they should be. -/
structure Linked (t : ClassTable) (hash : List Nat → UInt64) : Prop where
  buckets_pos : 0 < t.buckets.size
  hashed : ∀ (i : Nat) (s : Slot), t.slots[i]? = some s → s.hash = hash s.entry.key
  chained : Chained t.buckets t.slots
  first : t.first = placed t.slots.size 0
  last : ∀ i, t.last = some i ↔ i + 1 = t.slots.size
  following : ∀ (i : Nat) (s : Slot), t.slots[i]? = some s →
    s.following = placed t.slots.size (i + 1)
  distinct : (t.entries.map (·.key)).Nodup

variable {t : ClassTable} {hash : List Nat → UInt64}

theorem linked_ofCapacity (capacity : Nat) (tracks : Bool) :
    (ofCapacity capacity tracks).Linked hash where
  buckets_pos := by
    rw [ofCapacity, Array.size_replicate]
    exact nextPower_pos _
  hashed i s h := by simp [ofCapacity] at h
  chained := chained_empty _
  first := rfl
  last i := by simp [ofCapacity]
  following i s h := by simp [ofCapacity] at h
  distinct := List.nodup_nil

namespace Linked

/-! ## Finding -/

/-- Induction along the links, from the end of the table back: behind the last slot there is no
class, and behind a slot there are its own class and those behind the slot it leads to. -/
theorem along (h : t.Linked hash) {motive : Nat → Option Nat → List EquivalenceClass → Prop}
    (stop : ∀ i, motive i none [])
    (step : ∀ (i : Nat) (s : Slot) (behind : List EquivalenceClass), t.slots[i]? = some s →
      motive (i + 1) s.following behind → motive i (some i) (s.entry :: behind))
    (i : Nat) : motive i (placed t.slots.size i) (t.entries.drop i) := by
  induction hn : t.slots.size - i generalizing i with
  | zero =>
    have hle : t.slots.size ≤ i := by omega
    rw [placed, if_neg hle.not_gt, List.drop_of_length_le (by simpa using hle)]
    exact stop i
  | succ n ih =>
    have hlt : i < t.slots.size := by omega
    have hslot : t.slots[i]? = some t.slots[i] := Array.getElem?_eq_getElem hlt
    have hdrop : t.entries.drop i = t.slots[i].entry :: t.entries.drop (i + 1) := by
      rw [List.drop_eq_getElem_cons (by simpa using hlt)]
      simp [entries]
    rw [placed, if_pos hlt, hdrop]
    refine step i _ _ hslot ?_
    rw [h.following i _ hslot]
    exact ih (i + 1) (by omega)

theorem classesFrom_eq (h : t.Linked hash) (i : Nat) :
    t.classesFrom (placed t.slots.size i) = t.entries.drop i := by
  refine h.along (motive := fun _ cursor classes => t.classesFrom cursor = classes)
    (fun _ => classesFrom_none t) ?_ i
  intro i s behind hslot hbehind
  rw [classesFrom_some hslot, hbehind]

theorem classes_eq (h : t.Linked hash) : t.classes = t.entries := by
  rw [classes, h.first, h.classesFrom_eq, List.drop_zero]

theorem size_eq (h : t.Linked hash) : t.size = t.grouping.size := by
  rw [Grouping.size, grouping, h.classes_eq, length_entries, size]

theorem totalCount_eq (h : t.Linked hash) : t.totalCount = t.grouping.totalCount := by
  rw [Grouping.totalCount, grouping, h.classes_eq, entries, List.map_map]
  rfl

theorem totalRecords_eq (h : t.Linked hash) : t.totalRecords = t.grouping.totalRecords := by
  rw [Grouping.totalRecords, grouping, h.classes_eq, entries, List.map_map]
  rfl

def holds (t : ClassTable) (key : List Nat) (i : Nat) : Bool :=
  t.slots[i]?.any fun s => s.entry.key = key

/-- Slots with a key lie in the bucket of the key, so none of them is passed by. -/
theorem seek_eq (h : t.Linked hash) (key : List Nat) (n : Nat) :
    t.seek (hash key) key
        (youngest (lies t.slots t.buckets.size (bucketOf (hash key) t.buckets.size)) n) =
      youngest (holds t key) n := by
  induction n with
  | zero => exact seek_none t _ key
  | succ n ih =>
    rw [youngest, youngest]
    cases hs : t.slots[n]? with
    | none => simp [lies, holds, hs, ih]
    | some s =>
      have hhash := h.hashed n s hs
      have hlies : lies t.slots t.buckets.size (bucketOf (hash key) t.buckets.size) n =
          decide (bucketOf s.hash t.buckets.size = bucketOf (hash key) t.buckets.size) := by
        simp [lies, hs]
      have hholds : holds t key n = decide (s.entry.key = key) := by simp [holds, hs]
      rw [hlies, hholds]
      by_cases hkey : s.entry.key = key
      · have hown : s.hash = hash key := hhash.trans (congrArg hash hkey)
        simp [hown, hkey, seek_some hs]
      · by_cases hbucket : bucketOf s.hash t.buckets.size = bucketOf (hash key) t.buckets.size
        · simp [hbucket, hkey, seek_some hs, h.chained.older n s hs, ih]
        · simp [hbucket, hkey, ih]

theorem slotOf_eq (h : t.Linked hash) (key : List Nat) :
    t.slotOf? hash key = youngest (holds t key) t.slots.size := by
  rw [slotOf?, h.chained.head _ (bucketOf_lt h.buckets_pos _), h.seek_eq]

theorem exists_of_slotOf (h : t.Linked hash) {key : List Nat} {i : Nat}
    (hi : t.slotOf? hash key = some i) : ∃ e, t.entries[i]? = some e ∧ e.key = key := by
  rw [h.slotOf_eq] at hi
  obtain ⟨-, hholds⟩ := youngest_spec hi
  rw [holds, Option.any_eq_true] at hholds
  obtain ⟨s, hs, hkey⟩ := hholds
  exact ⟨s.entry, by rw [getElem?_entries, hs, Option.map_some], of_decide_eq_true hkey⟩

theorem notMem_of_slotOf (h : t.Linked hash) {key : List Nat}
    (hnone : t.slotOf? hash key = none) : key ∉ t.entries.map (·.key) := by
  rw [h.slotOf_eq] at hnone
  intro hmem
  obtain ⟨e, he, rfl⟩ := List.mem_map.mp hmem
  obtain ⟨i, hi⟩ := List.mem_iff_getElem?.mp he
  rw [getElem?_entries] at hi
  obtain ⟨s, hs, rfl⟩ := Option.map_eq_some_iff.mp hi
  have hholds := youngest_eq_none hnone i (Array.getElem?_eq_some_iff.mp hs).1
  simp [holds, hs] at hholds

theorem find?_eq (h : t.Linked hash) (key : List Nat) :
    t.find? hash key = t.grouping.find? key := by
  rw [find?, Grouping.find?, grouping, h.classes_eq]
  cases hi : t.slotOf? hash key with
  | none =>
    have hnone : t.entries.find? (·.key = key) = none := by
      rw [List.find?_eq_none]
      intro e he hkey
      exact h.notMem_of_slotOf hi (List.mem_map.mpr ⟨e, he, by simpa using hkey⟩)
    rw [hnone, Option.bind_none]
  | some i =>
    obtain ⟨e, he, rfl⟩ := h.exists_of_slotOf hi
    rw [Option.bind_some, ← getElem?_entries, he,
      Grouping.find?_eq_some h.distinct (List.mem_of_getElem? he)]

/-! ## Filling -/

/-- What a slot keeps as long as no other slot is filled. -/
def frame (s : Slot) : List Nat × UInt64 × Option Nat := (s.entry.key, s.hash, s.following)

/-- The links in the order of filling stay right if the buckets are chained anew and classes
are changed under their keys. -/
theorem of_frame (h : t.Linked hash) {u : ClassTable} (hpos : 0 < u.buckets.size)
    (hchained : Chained u.buckets u.slots) (hfirst : u.first = t.first) (hlast : u.last = t.last)
    (hframe : u.slots.toList.map frame = t.slots.toList.map frame) : u.Linked hash := by
  have hsize : u.slots.size = t.slots.size := by simpa using congrArg List.length hframe
  have hown : ∀ (i : Nat) (s : Slot), u.slots[i]? = some s →
      ∃ own, t.slots[i]? = some own ∧ frame own = frame s := by
    intro i s hs
    simpa [hs] using (congrArg (·[i]?) hframe).symm
  refine ⟨hpos, fun i s hs => ?_, hchained, ?_, fun i => ?_, fun i s hs => ?_, ?_⟩
  · obtain ⟨own, hown, heq⟩ := hown i s hs
    obtain ⟨hkey, hhash, -⟩ := Prod.mk.inj heq |>.imp_right Prod.mk.inj
    rw [← hhash, ← hkey, h.hashed i own hown]
  · rw [hsize, hfirst, h.first]
  · rw [hsize, hlast, h.last i]
  · obtain ⟨own, hown, heq⟩ := hown i s hs
    obtain ⟨-, -, hfollowing⟩ := Prod.mk.inj heq |>.imp_right Prod.mk.inj
    rw [← hfollowing, h.following i own hown, hsize]
  · have hkeys : u.entries.map (·.key) = t.entries.map (·.key) := by
      simpa [entries, frame, Function.comp_def] using congrArg (List.map Prod.fst) hframe
    rw [hkeys]
    exact h.distinct

theorem entries_rehash (t : ClassTable) : t.rehash.entries = t.entries := by
  rw [entries, entries, ClassTable.rehash, List.toList_toArray]
  exact map_chain (fun _ _ => rfl) _

theorem rehash (h : t.Linked hash) : t.rehash.Linked hash := by
  have hpos : 0 < t.buckets.size * 2 := Nat.mul_pos h.buckets_pos Nat.two_pos
  apply h.of_frame
  · rw [ClassTable.rehash, size_chain, Array.size_replicate]
    exact hpos
  · exact chained_chain t.slots hpos
  · rfl
  · rfl
  · rw [ClassTable.rehash, List.toList_toArray]
    exact map_chain (fun _ _ => rfl) _

theorem entries_fill (t : ClassTable) (hash : UInt64) (e : EquivalenceClass) :
    (t.fill hash e).entries = t.entries ++ [e] := by
  have hlinked : (linkLast t.slots t.last).toList.map (·.entry) = t.entries := by
    apply List.ext_getElem?
    intro i
    rw [getElem?_entries, List.getElem?_map, Array.getElem?_toList, getElem?_linkLast,
      Option.map_map]
    congr 1
    funext s
    simp only [Function.comp_apply]
    split_ifs <;> rfl
  rw [entries, fill, Array.toList_push, List.map_append, hlinked, List.map_singleton]

theorem size_slots_fill (t : ClassTable) (hash : UInt64) (e : EquivalenceClass) :
    (t.fill hash e).slots.size = t.slots.size + 1 := by
  simp [ClassTable.fill]

/-- A slot of the new class is at the end, and what was the last slot now leads to it. -/
theorem slots_fill (h : t.Linked hash) {own : UInt64} {e : EquivalenceClass} {i : Nat} {s : Slot}
    (hs : (t.fill own e).slots[i]? = some s) :
    (i = t.slots.size ∧ s.entry = e ∧ s.hash = own ∧ s.following = none) ∨
    ∃ old, t.slots[i]? = some old ∧
      s = if i + 1 = t.slots.size then { old with following := some t.slots.size } else old := by
  simp only [ClassTable.fill, Array.getElem?_push, size_linkLast, getElem?_linkLast,
    h.last i] at hs
  by_cases hi : i = t.slots.size
  · rw [if_pos hi] at hs
    cases hs
    exact Or.inl ⟨hi, rfl, rfl, rfl⟩
  · rw [if_neg hi] at hs
    obtain ⟨old, hold, rfl⟩ := Option.map_eq_some_iff.mp hs
    exact Or.inr ⟨old, hold, rfl⟩

theorem chained_linkLast (h : t.Linked hash) : Chained t.buckets (linkLast t.slots t.last) := by
  apply h.chained.map (size_linkLast _ _)
  intro i
  rw [getElem?_linkLast, Option.map_map]
  congr 1
  funext s
  simp only [Function.comp_apply]
  split_ifs <;> rfl

/-- A class with a new key gets a slot that is linked like the others. -/
theorem fill (h : t.Linked hash) {e : EquivalenceClass} (hnew : e.key ∉ t.entries.map (·.key)) :
    (t.fill (hash e.key) e).Linked hash where
  buckets_pos := by
    rw [ClassTable.fill, Array.size_setIfInBounds]
    exact h.buckets_pos
  hashed i s hs := by
    rcases h.slots_fill hs with ⟨-, rfl, hhash, -⟩ | ⟨old, hold, rfl⟩
    · exact hhash
    · have hhash := h.hashed i old hold
      split_ifs <;> exact hhash
  chained := by
    have hpush := h.chained_linkLast.push h.buckets_pos
      (s := ⟨e, hash e.key, headOf t.buckets (bucketOf (hash e.key) t.buckets.size), none⟩) rfl
    rwa [size_linkLast] at hpush
  first := by
    have hfirst : (t.fill (hash e.key) e).first = t.first.or (some t.slots.size) := rfl
    rw [size_slots_fill, hfirst, h.first, placed, placed, if_pos (Nat.succ_pos _)]
    split_ifs with hpos
    · rfl
    · simpa using hpos
  last i := by
    rw [size_slots_fill, ClassTable.fill]
    simp [eq_comm]
  following i s hs := by
    rw [size_slots_fill]
    rcases h.slots_fill hs with ⟨rfl, -, -, hfollowing⟩ | ⟨old, hold, rfl⟩
    · rw [hfollowing, placed, if_neg (lt_irrefl _)]
    · have hlt : i < t.slots.size := (Array.getElem?_eq_some_iff.mp hold).1
      rw [placed, if_pos (Nat.succ_lt_succ hlt)]
      split_ifs with hlast
      · rw [hlast]
      · rw [h.following i old hold, placed, if_pos (lt_of_le_of_ne hlt hlast)]
  distinct := by
    rw [entries_fill, List.map_append, List.map_singleton]
    simpa using List.Nodup.concat hnew h.distinct

theorem entries_modify (t : ClassTable) (i : Nat) (f : EquivalenceClass → EquivalenceClass) :
    (t.modify i f).entries = t.entries.modify i f := by
  apply List.ext_getElem?
  intro k
  rw [getElem?_entries, List.getElem?_modify, getElem?_entries, ClassTable.modify,
    Array.getElem?_modify]
  split_ifs with hk
  · simp [Option.map_map, Function.comp_def]
  · simp

theorem modify (h : t.Linked hash) (i : Nat) {f : EquivalenceClass → EquivalenceClass}
    (hkey : ∀ e, (f e).key = e.key) : (t.modify i f).Linked hash := by
  have hslot : ∀ k : Nat, (t.modify i f).slots[k]? = t.slots[k]?.map fun s =>
      if i = k then { s with entry := f s.entry } else s := by
    intro k
    rw [ClassTable.modify, Array.getElem?_modify]
    split_ifs <;> simp
  apply h.of_frame
  · exact h.buckets_pos
  · apply h.chained.map (by simp [ClassTable.modify])
    intro k
    rw [hslot, Option.map_map]
    congr 1
    funext s
    simp only [Function.comp_apply]
    split_ifs <;> rfl
  · rfl
  · rfl
  · apply List.ext_getElem?
    intro k
    rw [List.getElem?_map, Array.getElem?_toList, hslot, Option.map_map, List.getElem?_map,
      Array.getElem?_toList]
    congr 1
    funext s
    simp only [Function.comp_apply, frame]
    split_ifs
    · rw [hkey]
    · rfl

/-- A key that is there is found, and a new one gets a slot at the end. -/
theorem findOrInsert (h : t.Linked hash) (key : List Nat) (representative : Nat) :
    (t.findOrInsert hash key representative).2.Linked hash ∧
      (t.findOrInsert hash key representative).2.tracks = t.tracks ∧
      ((∃ e, t.entries[(t.findOrInsert hash key representative).1]? = some e ∧ e.key = key ∧
          (t.findOrInsert hash key representative).2 = t) ∨
        key ∉ t.entries.map (·.key) ∧
          (t.findOrInsert hash key representative).1 = t.entries.length ∧
          (t.findOrInsert hash key representative).2.entries =
            t.entries ++ [EquivalenceClass.unfilled key representative]) := by
  rw [ClassTable.findOrInsert]
  cases hi : t.slotOf? hash key with
  | some i =>
    obtain ⟨e, he, hkey⟩ := h.exists_of_slotOf hi
    exact ⟨h, rfl, Or.inl ⟨e, he, hkey, rfl⟩⟩
  | none =>
    have hnew := h.notMem_of_slotOf hi
    obtain ⟨grown, hgrown, hlinked, hentries, htracks⟩ : ∃ grown,
        grown = (if t.crowded then t.rehash else t) ∧ grown.Linked hash ∧
          grown.entries = t.entries ∧ grown.tracks = t.tracks := by
      split_ifs
      · exact ⟨t.rehash, rfl, h.rehash, entries_rehash t, rfl⟩
      · exact ⟨t, rfl, h, rfl, rfl⟩
    simp only [← hgrown]
    refine ⟨?_, htracks, Or.inr ⟨hnew, ?_, ?_⟩⟩
    · apply hlinked.fill (e := EquivalenceClass.unfilled key representative)
      rw [hentries]
      exact hnew
    · rw [← hentries, length_entries]
    · rw [entries_fill, hentries]

theorem add (h : t.Linked hash) (c : Contribution) :
    (t.add hash c).Linked hash ∧ (t.add hash c).grouping = t.grouping.add c := by
  obtain ⟨hlinked, htracks, hcases⟩ := h.findOrInsert c.key c.representative
  have hadd : (t.add hash c).Linked hash := by
    rw [ClassTable.add]
    exact hlinked.modify _ fun e => rfl
  refine ⟨hadd, ?_⟩
  have hclasses : (t.add hash c).classes = Grouping.addTo t.tracks c t.entries := by
    rw [hadd.classes_eq, ClassTable.add, entries_modify, htracks]
    rcases hcases with ⟨e, he, hkey, hsame⟩ | ⟨hnew, hplace, hentries⟩
    · rw [hsame, Grouping.addTo_eq_modify h.distinct he hkey]
    · rw [hplace, hentries, Grouping.addTo_eq_append hnew, List.modify_eq_take_drop,
        List.take_left, List.drop_left]
      rfl
  rw [grouping, hclasses, Grouping.add, grouping, h.classes_eq]
  exact congrArg (fun tracks => (⟨tracks, _⟩ : Grouping)) htracks

theorem addAll (h : t.Linked hash) (cs : List Contribution) :
    (cs.foldl (fun t c => t.add hash c) t).Linked hash ∧
      (cs.foldl (fun t c => t.add hash c) t).grouping = t.grouping.addAll cs := by
  induction cs generalizing t with
  | nil => exact ⟨h, rfl⟩
  | cons c cs ih =>
    obtain ⟨hadd, hgrouping⟩ := h.add c
    obtain ⟨hlinked, hall⟩ := ih hadd
    rw [List.foldl_cons, Grouping.addAll, List.foldl_cons, ← hgrouping]
    exact ⟨hlinked, hall⟩

theorem merge (h : t.Linked hash) (other : ClassTable) :
    (t.merge hash other).Linked hash ∧
      (t.merge hash other).grouping = t.grouping.merge other.grouping := by
  have hfold : t.merge hash other =
      (other.classes.map fun e => e.contribution e.key).foldl (fun t c => t.add hash c) t := by
    rw [ClassTable.merge, List.foldl_map]
  rw [hfold]
  exact h.addAll _

end Linked
end ClassTable
end Recoding
