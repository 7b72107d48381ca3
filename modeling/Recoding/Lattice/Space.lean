import Std.Data.TreeMap
import Recoding.Check.Evaluation
import Recoding.Lattice.Basic

/-!
# The solution space

The lattice together with what is known about its transformations. A node is created
when something is first written to it; the result of its first check is never replaced.

As long as every criterion is monotone, anonymity spreads upwards from anonymous nodes
and its absence spreads downwards. The minimal anonymous and the maximal violating
checked nodes are kept as roots, from which the marks of all other nodes are predicted.
-/

namespace Recoding

/-! ## Marks

The marks of a node are bits of one number. -/

namespace Mark

/-- The node has been checked. -/
def checked : Nat := 1

/-- Every class satisfies every criterion. -/
def anonymous : Nat := 2

/-- Some class violates a criterion. -/
def notAnonymous : Nat := 4

/-- A search has reached the node. -/
def visited : Nat := 8

/-- A search does not continue beyond the node. -/
def successorsPruned : Nat := 16

/-- The neighbours of the node have been listed. -/
def expanded : Nat := 32

end Mark

structure Node where
  id : Nat
  levels : List Nat
  marks : Nat
  loss : Option Loss
  lowerBound : Option Loss
  score : Option Rat
deriving Repr

namespace Node

/-- A node about which nothing is known. -/
def unknown (id : Nat) (levels : List Nat) : Node := ⟨id, levels, 0, none, none, none⟩

def level (n : Node) : Nat := levelSum n.levels

/-- Whether all the given marks are set on the node itself. -/
def has (n : Node) (marks : Nat) : Bool := n.marks &&& marks == marks

def mark (n : Node) (marks : Nat) : Node := { n with marks := n.marks ||| marks }

/-- Records a bound, unless there already is one. -/
def bound (n : Node) (lowerBound : Loss) : Node :=
  { n with lowerBound := n.lowerBound.or (some lowerBound) }

/-- Records an evaluation. After the first one only a missing score is added. -/
def record (n : Node) (e : Evaluation) : Node :=
  let scored := { n with score := n.score.or e.score }
  if n.has Mark.checked then scored
  else { scored with
    marks := n.marks ||| Mark.checked |||
      (if e.anonymous then Mark.anonymous else Mark.notAnonymous)
    loss := some e.loss
    lowerBound := e.lowerBound.or n.lowerBound }

end Node

/-- Whether every level is at most the corresponding one. -/
def levelsLe (a b : List Nat) : Bool := (a.zip b).all fun (x, y) => x ≤ y

/-- The lattice with its nodes and what is predicted from them. -/
structure SolutionSpace where
  lattice : Lattice
  nodes : Std.TreeMap Nat Node
  /-- Whether marks are predicted from checked nodes. -/
  predictable : Bool
  anonymousRoots : List (List Nat)
  violatingRoots : List (List Nat)

namespace SolutionSpace

def ofLattice (lattice : Lattice) : SolutionSpace where
  lattice := lattice
  nodes := ∅
  predictable := true
  anonymousRoots := []
  violatingRoots := []

def node? (s : SolutionSpace) (id : Nat) : Option Node := s.nodes[id]?

def nodeOrUnknown (s : SolutionSpace) (id : Nat) : Except Failure Node :=
  match s.node? id with
  | some node => .ok node
  | none => (s.lattice.levelsOf id).map (Node.unknown id)

def modify (s : SolutionSpace) (id : Nat) (f : Node → Node) : Except Failure SolutionSpace :=
  (s.nodeOrUnknown id).map fun node => { s with nodes := s.nodes.insert id (f node) }

/-- Creates the node of a transformation, unless there is one. -/
def create (s : SolutionSpace) (id : Nat) : Except Failure SolutionSpace :=
  s.modify id fun node => node

def mark (s : SolutionSpace) (id marks : Nat) : Except Failure SolutionSpace :=
  s.modify id (·.mark marks)

/-- Records a bound that was computed before checking the node. -/
def bound (s : SolutionSpace) (id : Nat) (lowerBound : Loss) : Except Failure SolutionSpace :=
  s.modify id (·.bound lowerBound)

/-- Turns predictions on or off. They are sound only for monotone criteria. -/
def setPredictable (s : SolutionSpace) (predictable : Bool) : SolutionSpace :=
  { s with predictable }

/-- Whether the marks of a transformation follow from those of checked nodes. -/
def predicts (s : SolutionSpace) (id marks : Nat) : Bool :=
  match s.lattice.levelsOf id with
  | .error _ => false
  | .ok levels =>
    if marks = Mark.anonymous then s.anonymousRoots.any (levelsLe · levels)
    else if marks = Mark.notAnonymous then s.violatingRoots.any (levelsLe levels ·)
    else false

/-- Whether a transformation has the given marks, on its node or by prediction. -/
def has (s : SolutionSpace) (id marks : Nat) : Bool :=
  ((s.node? id).any (·.has marks)) || (s.predictable && s.predicts id marks)

/-- Adds a root unless another one covers it, and drops the roots that it covers. -/
def insertRoot (covers : List Nat → List Nat → Bool) (roots : List (List Nat))
    (levels : List Nat) : List (List Nat) :=
  if roots.any (covers · levels) then roots
  else roots.filter (fun root => !covers levels root) ++ [levels]

/-- The space with a freshly checked node as a root of predictions. -/
def addRoot (s : SolutionSpace) (levels : List Nat) (anonymous : Bool) : SolutionSpace :=
  if anonymous then { s with anonymousRoots := insertRoot levelsLe s.anonymousRoots levels }
  else { s with violatingRoots := insertRoot (fun a b => levelsLe b a) s.violatingRoots levels }

/-- Records the evaluation of a transformation. The first one also serves predictions. -/
def record (s : SolutionSpace) (id : Nat) (e : Evaluation) : Except Failure SolutionSpace := do
  let node ← s.nodeOrUnknown id
  let recorded := { s with nodes := s.nodes.insert id (node.record e) }
  return if s.predictable && !node.has Mark.checked then recorded.addRoot node.levels e.anonymous
    else recorded

def materialized (s : SolutionSpace) : Nat := s.nodes.size

end SolutionSpace
end Recoding
