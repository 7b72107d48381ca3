import Recoding.Failure

/-!
# Generalization hierarchies

A hierarchy lists, for every value of an attribute, its code at each level. Level 0 is
the value itself, and values that share a code at one level share the codes of all
higher levels: generalizing further never splits a group.
-/

namespace Recoding

/-- The codes of every value, by value and then by level. -/
structure Hierarchy where
  name : String
  height : Nat
  codes : Array (Array Nat)
deriving DecidableEq, Repr

namespace Hierarchy

def generalize? (h : Hierarchy) (value level : Nat) : Option Nat :=
  h.codes[value]? >>= fun row => row[level]?

/-- The codes of a value from level 0 upwards, if the value is covered. -/
def codesOf? (h : Hierarchy) (value : Nat) : Option (List Nat) :=
  h.codes[value]?.map Array.toList

def domainSize (h : Hierarchy) : Nat := h.codes.size

def covers (h : Hierarchy) (value : Nat) : Bool := value < h.codes.size

def codesAt? (h : Hierarchy) (level : Nat) : Option (List Nat) :=
  (h.codes.toList.mapM fun row => row[level]?).map List.eraseDups

/-- The first row that is not the row of a value of a hierarchy with `height` levels. -/
def rowFault? (name : String) (height : Nat) : List (List Nat × Nat) → Option Failure
  | [] => none
  | (row, value) :: rest =>
    if row.length ≠ height then some (.hierarchyRow name value height row.length)
    else
      let leaf := row.headD 0
      if leaf ≠ value then some (.hierarchyLeaf name value leaf)
      else rowFault? name height rest

/-- Whether a row has another code above a level than the row before it that had the same code
at the level. `above` is what was seen above each code, the last row first. -/
def splitsFrom (level : Nat) (above : List (Option Nat × Option Nat)) :
    List (Array Nat) → Bool
  | [] => false
  | row :: rows =>
    let next := row[level + 1]?
    (above.lookup row[level]?).any (· != next) ||
      splitsFrom level ((row[level]?, next) :: above) rows

/-- Whether two values share a code at a level but not at the level above. -/
def splitsAbove (rows : List (Array Nat)) (level : Nat) : Bool := splitsFrom level [] rows

/-- The lowest level at which a group of the level below is split. -/
def splitLevel? (height : Nat) (rows : List (Array Nat)) : Option Nat :=
  ((List.range (height - 1)).find? (splitsAbove rows)).map (· + 1)

/-- The hierarchy with the given rows: at least one level, all rows of that height, every
value its own code at level 0, and no group ever split. -/
def ofTable (name : String) (height : Nat) (table : List (List Nat)) :
    Except Failure Hierarchy :=
  if height = 0 then .error (.hierarchyWithoutLevels name)
  else match rowFault? name height table.zipIdx with
    | some fault => .error fault
    | none =>
      let rows := table.map List.toArray
      match splitLevel? height rows with
      | some level => .error (.hierarchySplit name level)
      | none => .ok { name, height, codes := rows.toArray }

def ofRows (name : String) (table : List (List Nat)) : Except Failure Hierarchy :=
  ofTable name ((table.head?.map List.length).getD 1) table

/-- The hierarchy of one level, in which nothing can be generalized. -/
def identity (name : String) (values : Nat) : Except Failure Hierarchy :=
  ofTable name 1 ((List.range values).map fun value => [value])

end Hierarchy
end Recoding
