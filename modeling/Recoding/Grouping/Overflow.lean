import Recoding.Grouping.Table

/-!
# Tables in machine words

A table counts in words of 64 bits, and its buckets take 16 bytes each of a vector that is
shorter than `2 ^ 63` bytes. Where a counter or the buckets would outgrow that, the operations
here give nothing, and otherwise they do what those on unbounded tables do.
-/

namespace Recoding

namespace Distribution

def add? (d : Distribution) (value frequency : Nat) : Option Distribution := do
  let _ ← word? (d.frequency value + frequency)
  return d.add value frequency

def merge? (d other : Distribution) : Option Distribution :=
  other.entries.foldlM (fun d (value, frequency) => d.add? value frequency) d

def combine? : Option Distribution → Option Distribution → Option (Option Distribution)
  | d, none => some d
  | d, some other => ((d.getD empty).merge? other).map some

end Distribution

def EquivalenceClass.absorb? (tracks : Bool) (e : EquivalenceClass) (c : Contribution) :
    Option EquivalenceClass := do
  let count ← word? (e.count + c.count)
  let total ← word? (e.total + c.total)
  let distribution ←
    (if tracks then Distribution.combine? e.distribution c.distribution else some e.distribution)
  return { e with count, total, distribution }

namespace ClassTable

def ofCapacity? (capacity : Nat) (tracks : Bool) : Option ClassTable :=
  if initialBuckets capacity < 2 ^ 59 then some (ofCapacity capacity tracks) else none

def rehash? (t : ClassTable) : Option ClassTable :=
  if t.buckets.size * 2 < 2 ^ 59 then some t.rehash else none

def findOrInsert? (t : ClassTable) (hash : List Nat → UInt64) (key : List Nat)
    (representative : Nat) : Option (Nat × ClassTable) :=
  match t.slotOf? hash key with
  | some i => some (i, t)
  | none => do
    let t ← (if t.crowded then t.rehash? else some t)
    return (t.slots.size, t.fill (hash key) (EquivalenceClass.unfilled key representative))

def add? (t : ClassTable) (hash : List Nat → UInt64) (c : Contribution) : Option ClassTable := do
  let (i, t) ← t.findOrInsert? hash c.key c.representative
  let s ← t.slots[i]?
  let e ← s.entry.absorb? t.tracks c
  return t.modify i fun _ => e

def addAll? (t : ClassTable) (hash : List Nat → UInt64) (cs : List Contribution) :
    Option ClassTable := cs.foldlM (fun t c => t.add? hash c) t

def merge? (t : ClassTable) (hash : List Nat → UInt64) (other : ClassTable) : Option ClassTable :=
  t.addAll? hash (other.classes.map fun e => e.contribution e.key)

def totalCount? (t : ClassTable) : Option Nat := sum? (t.slots.toList.map (·.entry.count))

def totalRecords? (t : ClassTable) : Option Nat := sum? (t.slots.toList.map (·.entry.total))

end ClassTable
end Recoding
