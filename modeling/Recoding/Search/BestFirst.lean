import Recoding.Search.Exploration

/-!
# Best-first search

Transformations are visited from the bottom in ascending order of their lower bounds. If
the metric is monotone, nothing above an anonymous transformation, or above one whose
bound reaches the best loss, can be better, so the search does not continue there.
-/

namespace Recoding.BestFirst

open Exploration

/-- A transformation that waits to be visited. -/
structure Entry where
  bound : Float
  level : Nat
  id : Nat
deriving Repr

namespace Entry

/-- The order of visits: by bound, then by level, then by identifier. -/
def compare (a b : Entry) : Ordering :=
  (Binary64.totalCompare a.bound b.bound).then
    ((Ord.compare a.level b.level).then (Ord.compare a.id b.id))

def insert (e : Entry) : List Entry → List Entry
  | [] => [e]
  | first :: rest =>
    if e.compare first == .lt then e :: first :: rest else first :: insert e rest

end Entry

/-- Marks a transformation as visited and queues it under its lower bound. -/
def enqueue (id : Nat) (queue : List Entry) : Exploring (List Entry) := do
  onSpace (·.mark id Mark.visited)
  let x ← get
  let levels ← liftExcept (x.space.lattice.levelsOf id)
  match ← liftExcept (x.checker.metric.lowerBound levels) with
  | none => return Entry.insert ⟨Binary64.infinity true, levelSum levels, id⟩ queue
  | some bound =>
    onSpace (·.bound id bound)
    return Entry.insert ⟨bound.value, levelSum levels, id⟩ queue
where
  /-- A pure computation as a part of a search. -/
  liftExcept {α : Type} : Except Failure α → Exploring α
    | .ok value => return value
    | .error e => throw e

/-- Queues those transformations that no search has reached. -/
def enqueueNew : List Nat → List Entry → Exploring (List Entry)
  | [], queue => return queue
  | id :: rest, queue => do
    let x ← get
    if x.space.has id Mark.visited then enqueueNew rest queue
    else enqueueNew rest (← enqueue id queue)

/-- What to do with a visited transformation. -/
inductive Verdict where
  /-- Neither it nor anything above it can improve the optimum. -/
  | drop
  /-- It needs no check, but transformations above it may. -/
  | pass
  | check
deriving DecidableEq, Repr

def optimumLoss? (x : Exploration) : Option Float := do
  let id ← x.progress.optimum
  let node ← x.space.node? id
  let loss ← node.loss
  return loss.value

/-- The verdict on a transformation under a metric that is monotone or not. -/
def verdict (monotone : Bool) (x : Exploration) (e : Entry) : Verdict :=
  let boundedOut := (optimumLoss? x).any (· ≤ e.bound)
  let unchecked := !x.space.has e.id Mark.checked
  if boundedOut || (unchecked && x.space.has e.id Mark.anonymous && monotone) then
    if monotone then .drop else .pass
  else if unchecked && x.space.has e.id Mark.notAnonymous then .pass
  else .check

def expand (id : Nat) (queue : List Entry) : Exploring (List Entry) := do
  onSpace (·.mark id Mark.expanded)
  let x ← get
  match x.space.lattice.successors id with
  | .error e => throw e
  | .ok successors => enqueueNew successors queue

def prune (id : Nat) (queue : List Entry) : Exploring (List Entry) := do
  onSpace (·.mark id Mark.successorsPruned)
  return queue

def visit (monotone : Bool) (e : Entry) (queue : List Entry) : Exploring (List Entry) := do
  match verdict monotone (← get) e with
  | .drop =>
    count Counters.pruned
    prune e.id queue
  | .pass =>
    count Counters.pruned
    expand e.id queue
  | .check =>
    assureChecked e.id
    track e.id
    let x ← get
    if x.space.has e.id Mark.anonymous && monotone then prune e.id queue
    else expand e.id queue

/-- Visits queued transformations in order, at most as many as the first argument says.
`turn` numbers the readings of the clock. -/
def visitAll (clock : Nat → Nat) (monotone : Bool) :
    Nat → Nat → List Entry → Exploring Bool
  | 0, _, _ => finish true
  | _ + 1, _, [] => finish true
  | visits + 1, turn, e :: queue => do
    let x ← get
    if x.progress.mustStop (clock turn) then finish false
    else visitAll clock monotone visits (turn + 1) (← visit monotone e queue)

/-- Searches the whole space. Every transformation is queued at most once, so there are
at most as many visits as transformations. The clock tells the milliseconds since the
start at each visit. -/
def traverse (clock : Nat → Nat) : Exploring Bool := do
  onProgress Progress.start
  let x ← get
  onSpace fun s => .ok (s.setPredictable (x.checker.criteria.all Criterion.isMonotone))
  let queue ← enqueue x.space.lattice.bottom []
  visitAll clock x.checker.metric.isMonotone x.space.lattice.size 0 queue

end Recoding.BestFirst
