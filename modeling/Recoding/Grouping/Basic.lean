import Recoding.Distribution

/-!
# Groupings into equivalence classes

Records with equal generalized codes form one class. A grouping lists its classes in the
order in which their keys first occurred. Whatever is grouped, single records or whole
classes of a finer grouping, arrives as a contribution of the same form.

Counters are natural numbers here. Tables that count in machine words are those of
`Recoding.Grouping.Overflow`.
-/

namespace Recoding

/-- What one record, or one class of a finer grouping, adds to the class of its key. -/
structure Contribution where
  key : List Nat
  /-- A record that stands for all it contributes. -/
  representative : Nat
  /-- The records in the research subset. -/
  count : Nat
  /-- All records. -/
  total : Nat
  distribution : Option Distribution
deriving DecidableEq, Repr

/-- The contribution of one record. A sensitive value outside the research subset is
known to be there but does not count. -/
def Contribution.ofRecord (key : List Nat) (row : Nat) (inSubset : Bool)
    (sensitive : Option Nat) : Contribution where
  key := key
  representative := row
  count := inSubset.toNat
  total := 1
  distribution := sensitive.map fun value => Distribution.empty.add value inSubset.toNat

/-- All records with the same generalized codes. -/
structure EquivalenceClass where
  key : List Nat
  representative : Nat
  count : Nat
  total : Nat
  distribution : Option Distribution
  /-- Whether the last analysis found nothing against the class. -/
  passed : Bool
deriving DecidableEq, Repr

namespace EquivalenceClass

/-- The class before anything was added to it. -/
def unfilled (key : List Nat) (representative : Nat) : EquivalenceClass :=
  ⟨key, representative, 0, 0, none, false⟩

/-- Adds a contribution; its distribution counts only where distributions are tracked. -/
def absorb (tracks : Bool) (e : EquivalenceClass) (c : Contribution) : EquivalenceClass :=
  { e with
    count := e.count + c.count
    total := e.total + c.total
    distribution :=
      if tracks then Distribution.combine e.distribution c.distribution
      else e.distribution }

def contribution (e : EquivalenceClass) (key : List Nat) : Contribution :=
  ⟨key, e.representative, e.count, e.total, e.distribution⟩

end EquivalenceClass

/-- Equivalence classes in the order of the first occurrence of their keys. -/
structure Grouping where
  /-- Whether classes carry distributions of sensitive values. -/
  tracks : Bool
  classes : List EquivalenceClass
deriving DecidableEq, Repr

namespace Grouping

def empty (tracks : Bool) : Grouping := ⟨tracks, []⟩

/-- Adds to the class with the key of the contribution, or to a new class at the end. -/
def addTo (tracks : Bool) (c : Contribution) : List EquivalenceClass → List EquivalenceClass
  | [] => [(EquivalenceClass.unfilled c.key c.representative).absorb tracks c]
  | e :: rest =>
    if e.key = c.key then e.absorb tracks c :: rest else e :: addTo tracks c rest

def add (g : Grouping) (c : Contribution) : Grouping :=
  { g with classes := addTo g.tracks c g.classes }

def addAll (g : Grouping) (cs : List Contribution) : Grouping := cs.foldl add g

def ofContributions (tracks : Bool) (cs : List Contribution) : Grouping :=
  (empty tracks).addAll cs

def merge (g other : Grouping) : Grouping :=
  g.addAll (other.classes.map fun e => e.contribution e.key)

def find? (g : Grouping) (key : List Nat) : Option EquivalenceClass :=
  g.classes.find? (·.key = key)

def size (g : Grouping) : Nat := g.classes.length

def totalCount (g : Grouping) : Nat := (g.classes.map (·.count)).sum

def totalRecords (g : Grouping) : Nat := (g.classes.map (·.total)).sum

end Grouping
end Recoding
