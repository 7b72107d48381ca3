import Recoding.Grouping.History

/-!
# Engine counters

What was done during one run, for its report.
-/

namespace Recoding

structure Counters where
  checks : Nat
  fullScans : Nat
  representativeScans : Nat
  snapshotScans : Nat
  historyHits : Nat
  historyMisses : Nat
  snapshotsStored : Nat
  snapshotsEvicted : Nat
  nodesPruned : Nat
  mechanismDraws : Nat
deriving DecidableEq, Repr

namespace Counters

def zero : Counters := ⟨0, 0, 0, 0, 0, 0, 0, 0, 0, 0⟩

def check (c : Counters) : Counters := { c with checks := c.checks + 1 }

def fullScan (c : Counters) : Counters := { c with fullScans := c.fullScans + 1 }

def representativeScan (c : Counters) : Counters :=
  { c with representativeScans := c.representativeScans + 1 }

def snapshotScan (c : Counters) : Counters := { c with snapshotScans := c.snapshotScans + 1 }

def lookup (c : Counters) (hit : Bool) : Counters :=
  if hit then { c with historyHits := c.historyHits + 1 }
  else { c with historyMisses := c.historyMisses + 1 }

def stored (c : Counters) : Counters := { c with snapshotsStored := c.snapshotsStored + 1 }

def evicted (c : Counters) (evictions : Nat) : Counters :=
  { c with snapshotsEvicted := evictions }

def pruned (c : Counters) : Counters := { c with nodesPruned := c.nodesPruned + 1 }

def draw (c : Counters) : Counters := { c with mechanismDraws := c.mechanismDraws + 1 }

/-- The part of all lookups in the history that found a snapshot. -/
def hitRate (c : Counters) : Float := Recoding.hitRate c.historyHits c.historyMisses

end Counters
end Recoding
