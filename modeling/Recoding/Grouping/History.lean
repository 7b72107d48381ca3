import Recoding.Grouping.Snapshot
import Recoding.Loss.Basic

/-!
# The history of groupings

A bounded store of snapshots, oldest first. A transformation that generalizes every
attribute at least as far as a stored one can be grouped from its snapshot alone. Of
several usable snapshots the one with the fewest classes is the cheapest.
-/

namespace Recoding

/-- Which groupings are kept. -/
inductive Retention where
  | all
  /-- Those whose loss is above the threshold. -/
  | aboveThreshold
  /-- Those whose loss is below the threshold. -/
  | belowThreshold
  | none
deriving DecidableEq, Repr, Inhabited

structure HistoryLimits where
  retention : Retention
  lossThreshold : Float
  maxEntries : Nat
  /-- The largest number of classes relative to the number of records. -/
  datasetRatio : Float
  /-- The largest number of classes relative to what the grouping was derived from. -/
  sourceRatio : Float
deriving Repr

def HistoryLimits.standard : HistoryLimits := ⟨.all, 0.0, 200, 0.2, 0.8⟩

structure HistoryCounters where
  hits : Nat
  misses : Nat
  stored : Nat
  evictions : Nat
deriving DecidableEq, Repr

def hitRate (hits misses : Nat) : Float :=
  if hits + misses = 0 then 0.0
  else Binary64.ofCount hits / Binary64.ofCount (hits + misses)

/-- Snapshots of transformations, oldest first, with their interned distributions. -/
structure History where
  limits : HistoryLimits
  /-- The number of records of the dataset. -/
  records : Nat
  held : List (Nat × Snapshot)
  dictionary : Dictionary
  counters : HistoryCounters
deriving Repr

namespace History

def empty (limits : HistoryLimits) (records : Nat) : History where
  limits := limits
  records := records
  held := []
  dictionary := Dictionary.empty
  counters := ⟨0, 0, 0, 0⟩

def size (h : History) : Nat := h.held.length

def find? (h : History) (id : Nat) : Option Snapshot := h.held.lookup id

def setRetention (h : History) (retention : Retention) : History :=
  { h with limits := { h.limits with retention } }

def reset (h : History) : History := { h with held := [], dictionary := Dictionary.empty }

/-- Whether one snapshot is cheaper than another: fewer classes, then the smaller id. -/
def cheaper (a b : Nat × Snapshot) : Bool :=
  a.2.size < b.2.size || (a.2.size == b.2.size && a.1 < b.1)

def cheapest? : List (Nat × Snapshot) → Option (Nat × Snapshot)
  | [] => none
  | a :: rest =>
    match cheapest? rest with
    | none => some a
    | some b => if cheaper b a then some b else some a

/-- The cheapest snapshot from which the given levels can be grouped. -/
def closest? (h : History) (levels : List Nat) : Option (Nat × Snapshot) :=
  cheapest? (h.held.filter fun entry => entry.2.usableFor levels)

/-- Looks for the cheapest usable snapshot and counts the outcome. -/
def findClosest (h : History) (levels : List Nat) : Option (Nat × Snapshot) × History :=
  match h.closest? levels with
  | some found =>
    (some found, { h with counters := { h.counters with hits := h.counters.hits + 1 } })
  | none =>
    (none, { h with counters := { h.counters with misses := h.counters.misses + 1 } })

/-- Whether the retention admits a grouping with this loss. -/
def retains (h : History) (loss : Loss) : Bool :=
  match h.limits.retention with
  | .all => true
  | .aboveThreshold => h.limits.lossThreshold < loss.value
  | .belowThreshold => loss.value < h.limits.lossThreshold
  | .none => false

/-- Whether a grouping of so many classes is small enough to be worth keeping. -/
def fits (h : History) (classes : Nat) (sourceSize : Option Nat) : Bool :=
  let size := Binary64.ofCount classes
  !(h.limits.datasetRatio * Binary64.ofCount h.records < size) &&
    match sourceSize with
    | some source => !(h.limits.sourceRatio * Binary64.ofCount source < size)
    | none => true

def accepts (h : History) (id classes : Nat) (loss : Loss) (sourceSize : Option Nat) : Bool :=
  h.limits.maxEntries != 0 && (h.find? id).isNone && h.retains loss && h.fits classes sourceSize

/-- Stores the snapshot of a grouping if it is accepted; the oldest snapshots make room.
`sourceSize` is the number of classes of what the grouping was derived from. -/
def store (h : History) (id : Nat) (levels : List Nat) (g : Grouping) (loss : Loss)
    (sourceSize : Option Nat) : Bool × History :=
  if h.accepts id g.size loss sourceSize then
    let surplus := h.size + 1 - h.limits.maxEntries
    let (snapshot, dictionary) := Snapshot.ofGrouping levels g h.dictionary
    (true, { h with
      held := h.held.drop surplus ++ [(id, snapshot)]
      dictionary := dictionary
      counters := { h.counters with
        stored := h.counters.stored + 1
        evictions := h.counters.evictions + surplus } })
  else (false, h)

end History
end Recoding
