import Recoding.Grouping.History

/-!
# Stores of snapshots

A history as it is kept in memory: a map from transformations to their snapshots, which has no
order of its own, and the queue of these transformations, oldest first. Room for a snapshot is
made by taking transformations off the queue one by one.
-/

namespace Recoding

/-- Snapshots by transformation, in no particular order. -/
structure SnapshotMap where
  entries : List (Nat × Snapshot)
  distinct : (entries.map Prod.fst).Nodup
deriving Repr

namespace SnapshotMap

def empty : SnapshotMap := ⟨[], List.nodup_nil⟩

def size (m : SnapshotMap) : Nat := m.entries.length

def find? (m : SnapshotMap) (id : Nat) : Option Snapshot := m.entries.lookup id

def erase (m : SnapshotMap) (id : Nat) : SnapshotMap where
  entries := m.entries.filter (·.1 ≠ id)
  distinct := m.distinct.sublist (List.filter_sublist.map Prod.fst)

/-- The map with the snapshot of a transformation put in or replaced. -/
def insert (m : SnapshotMap) (id : Nat) (s : Snapshot) : SnapshotMap where
  entries := (id, s) :: (m.erase id).entries
  distinct := by
    refine List.nodup_cons.mpr ⟨fun h => ?_, (m.erase id).distinct⟩
    obtain ⟨entry, hentry, heq⟩ := List.mem_map.mp h
    exact absurd heq (by simpa using (List.mem_filter.mp hentry).2)

end SnapshotMap

/-- A map of snapshots with the queue of their transformations, oldest first. -/
structure SnapshotStore where
  limits : HistoryLimits
  /-- The number of records of the dataset. -/
  records : Nat
  snapshots : SnapshotMap
  order : List Nat
  dictionary : Dictionary
  counters : HistoryCounters
deriving Repr

namespace SnapshotStore

def empty (limits : HistoryLimits) (records : Nat) : SnapshotStore where
  limits := limits
  records := records
  snapshots := SnapshotMap.empty
  order := []
  dictionary := Dictionary.empty
  counters := ⟨0, 0, 0, 0⟩

def size (s : SnapshotStore) : Nat := s.snapshots.size

def find? (s : SnapshotStore) (id : Nat) : Option Snapshot := s.snapshots.find? id

def setRetention (s : SnapshotStore) (retention : Retention) : SnapshotStore :=
  { s with limits := { s.limits with retention } }

def reset (s : SnapshotStore) : SnapshotStore :=
  { s with snapshots := SnapshotMap.empty, order := [], dictionary := Dictionary.empty }

/-- Looks for the cheapest usable snapshot and counts the outcome. -/
def findClosest (s : SnapshotStore) (levels : List Nat) : Option Nat × SnapshotStore :=
  let usable := s.snapshots.entries.filter fun entry => entry.2.usableFor levels
  match History.cheapest? usable with
  | some (id, _) =>
    (some id, { s with counters := { s.counters with hits := s.counters.hits + 1 } })
  | none => (none, { s with counters := { s.counters with misses := s.counters.misses + 1 } })

/-- Whether a grouping of a transformation is going to be stored. -/
def accepts (s : SnapshotStore) (id classes : Nat) (loss : Loss) (sourceSize : Option Nat) :
    Bool :=
  let rules := History.empty s.limits s.records
  s.limits.maxEntries != 0 && (s.find? id).isNone && rules.retains loss &&
    rules.fits classes sourceSize

/-- Takes transformations off the queue until there is room for one more, and counts them. -/
def makeRoom (limit : Nat) (m : SnapshotMap) (evictions : Nat) :
    List Nat → SnapshotMap × List Nat × Nat
  | [] => (m, [], evictions)
  | id :: rest =>
    if limit ≤ m.size then makeRoom limit (m.erase id) (evictions + 1) rest
    else (m, id :: rest, evictions)

/-- Stores the snapshot of a grouping if it is accepted; the oldest snapshots make room. -/
def store (s : SnapshotStore) (id : Nat) (levels : List Nat) (g : Grouping) (loss : Loss)
    (sourceSize : Option Nat) : Bool × SnapshotStore :=
  if s.accepts id g.size loss sourceSize then
    let (snapshots, order, evictions) :=
      makeRoom s.limits.maxEntries s.snapshots s.counters.evictions s.order
    let (snapshot, dictionary) := Snapshot.ofGrouping levels g s.dictionary
    (true, { s with
      snapshots := snapshots.insert id snapshot
      order := order ++ [id]
      dictionary := dictionary
      counters := { s.counters with stored := s.counters.stored + 1, evictions } })
  else (false, s)

end SnapshotStore

end Recoding
