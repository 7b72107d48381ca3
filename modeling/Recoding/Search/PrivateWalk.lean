import Recoding.Certified
import Recoding.Random.Mechanism
import Recoding.Search.Exploration

/-!
# Differentially private walk

The walk starts at the top. Each step adds the predecessors of the current transformation
to a pool of candidates and draws the next one from the whole pool. What is drawn leaves
the pool, and returns when a later step lists it again; it is never checked twice.
-/

namespace Recoding.PrivateWalk

open Exploration

/-- Candidates with their scores as doubles, in ascending order of identifiers. -/
abbrev Pool := List (Nat × Float)

namespace Pool

def contains (pool : Pool) (id : Nat) : Bool := pool.any fun (key, _) => key == id

def insert (id : Nat) (score : Float) : Pool → Pool
  | [] => [(id, score)]
  | (key, other) :: rest =>
    if id < key then (id, score) :: (key, other) :: rest
    else (key, other) :: insert id score rest

def erase (pool : Pool) (id : Nat) : Pool := pool.filter fun (key, _) => key != id

end Pool

/-- The exact score of a transformation as a certified double. -/
def scoreOf (space : SolutionSpace) (id : Nat) : Except Failure Float :=
  match space.node? id >>= Node.score with
  | none => .error (.unknownTransformation id)
  | some score => certified score

def collect : List Nat → Pool → Exploring Pool
  | [], pool => return pool
  | id :: rest, pool => do
    if Pool.contains pool id then collect rest pool
    else
      assureChecked id
      onSpace (·.mark id Mark.visited)
      let x ← get
      match scoreOf x.space id with
      | .error e => throw e
      | .ok score => collect rest (Pool.insert id score pool)

/-- Lists the predecessors of the current transformation, which leaves the pool. -/
def expand (pivot : Nat) (pool : Pool) : Exploring Pool := do
  onSpace (·.mark pivot Mark.expanded)
  let x ← get
  match x.space.lattice.predecessors pivot with
  | .error e => throw e
  | .ok predecessors =>
    let pool ← collect predecessors pool
    return Pool.erase pool pivot

def draw (epsilon : Float) (pool : Pool) : Exploring (Option Nat) := do
  let x ← get
  let (choice, mechanism) := Mechanism.select ⟨epsilon, x.source⟩ pool
  set { x with source := mechanism.source }
  return choice

/-- Takes at most the given number of steps. `turn` numbers the readings of the clock. -/
def walk (clock : Nat → Nat) (epsilon : Float) : Nat → Nat → Nat → Pool → Exploring Bool
  | 0, _, _, _ => finish false
  | steps + 1, turn, pivot, pool => do
    let pool ← expand pivot pool
    if pool.isEmpty then finish false
    else
      match ← draw epsilon pool with
      | none => finish false
      | some next =>
        count Counters.draw
        track next
        let x ← get
        if x.progress.mustStop (clock turn) then finish false
        else walk clock epsilon steps (turn + 1) next pool

/-- Walks from the top with a budget per step. Every score may serve as a source of later
groupings, so all of them are kept, and the criteria need not be monotone, so nothing is
predicted. A walk never proves its optimum. -/
def traverse (clock : Nat → Nat) (epsilon : Float) (steps : Nat) : Exploring Bool := do
  onProgress Progress.start
  onSpace fun s => .ok (s.setPredictable false)
  modify fun x => { x with checker := x.checker.setRetention .all }
  let x ← get
  let top := x.space.lattice.top
  assureChecked top
  track top
  walk clock epsilon steps 0 top []

end Recoding.PrivateWalk
