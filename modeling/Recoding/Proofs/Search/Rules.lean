import Recoding.Search.Basic
import Mathlib.Tactic.SplitIfs

/-!
# Rules for the parts of a search

A search composes a few changes to its state and looks at the state only through its space, its
metric, its limits and its verdicts. So whatever holds of these changes and of compositions holds
of every part of a search, whether it is about one run or relates two of them.
-/

namespace Recoding

open Exploration

/-- Two states that look the same to a search, which need not have the same checker, source or
optimum. -/
structure Exploration.Alike (x y : Exploration) : Prop where
  space : x.space = y.space
  metric : x.checker.metric = y.checker.metric
  mustStop : ∀ time, x.progress.mustStop time = y.progress.mustStop time
  verdict : ∀ monotone e, BestFirst.verdict monotone x e = BestFirst.verdict monotone y e

theorem BestFirst.verdict_congr {x y : Exploration} (hprogress : x.progress = y.progress)
    (hspace : x.space = y.space) (monotone : Bool) (e : Entry) :
    verdict monotone x e = verdict monotone y e := by
  unfold verdict optimumLoss?
  rw [hprogress, hspace]

theorem Exploration.Alike.of_eq {x y : Exploration} (hprogress : x.progress = y.progress)
    (hspace : x.space = y.space) (hmetric : x.checker.metric = y.checker.metric) : Alike x y :=
  ⟨hspace, hmetric, fun _ => by rw [hprogress], BestFirst.verdict_congr hprogress hspace⟩

/-- What compositions have if their parts have it. -/
structure Compositional (Q : ∀ {α : Type}, Exploring α → Prop) : Prop where
  pure : ∀ {α : Type} (a : α), Q (pure a : Exploring α)
  throw : ∀ {α : Type} (failure : Failure), Q (throw failure : Exploring α)
  bind : ∀ {α β : Type} {m : Exploring α} {f : α → Exploring β}, Q m → (∀ a, Q (f a)) →
    Q (m >>= f)
  read : ∀ {β : Type} {f : Exploration → Exploring β}, (∀ x, Q (f x)) →
    (∀ x y, Alike x y → f x = f y) → Q (get >>= f)

/-- What listing neighbours has. -/
structure Marking (Q : ∀ {α : Type}, Exploring α → Prop) : Prop extends Compositional Q where
  visited : ∀ id, Q (onSpace (·.mark id Mark.visited))
  mark : ∀ id new, new = Mark.expanded ∨ new = Mark.successorsPruned →
    Q (onSpace (·.mark id new))

/-- What listing neighbours and queueing them has. -/
structure Queueing (Q : ∀ {α : Type}, Exploring α → Prop) : Prop extends Marking Q where
  bound : ∀ id lowerBound, Q (onSpace (·.bound id lowerBound))

/-- What listing neighbours and checking them has. -/
structure Listing (Q : ∀ {α : Type}, Exploring α → Prop) : Prop extends Marking Q where
  assureChecked : ∀ id, Q (assureChecked id)

/-- What every part of a search has, draws apart. -/
structure Searching (Q : ∀ {α : Type}, Exploring α → Prop) : Prop extends Listing Q, Queueing Q where
  count : ∀ f, f = Counters.pruned ∨ f = Counters.draw → Q (count f)
  track : ∀ id, Q (track id)
  finish : ∀ proved, Q (finish proved)

variable {Q : ∀ {α : Type}, Exploring α → Prop}

/-! ## Best-first search -/

section
variable (hQ : Queueing Q)
include hQ

theorem Queueing.enqueue (id : Nat) (queue : List BestFirst.Entry) :
    Q (BestFirst.enqueue id queue) := by
  have hlift : ∀ {α : Type} (outcome : Except Failure α),
      Q (BestFirst.enqueue.liftExcept outcome) := by
    intro α outcome
    cases outcome with
    | error failure => exact hQ.throw failure
    | ok value => exact hQ.pure value
  refine hQ.bind (hQ.visited id) fun _ => ?_
  refine hQ.read (fun x => ?_) fun x y h => by rw [h.space, h.metric]
  refine hQ.bind (hlift _) fun levels => hQ.bind (hlift _) fun bound => ?_
  cases bound with
  | none => exact hQ.pure _
  | some bound => exact hQ.bind (hQ.bound id bound) fun _ => hQ.pure _

theorem Queueing.enqueueNew (ids : List Nat) (queue : List BestFirst.Entry) :
    Q (BestFirst.enqueueNew ids queue) := by
  induction ids generalizing queue with
  | nil => exact hQ.pure queue
  | cons id rest ih =>
    refine hQ.read (fun x => ?_) fun x y h => by rw [h.space]
    split_ifs
    · exact ih queue
    · exact hQ.bind (hQ.enqueue id queue) ih

theorem Queueing.expand (id : Nat) (queue : List BestFirst.Entry) :
    Q (BestFirst.expand id queue) := by
  refine hQ.bind (hQ.mark id _ (Or.inl rfl)) fun _ => ?_
  refine hQ.read (fun x => ?_) fun x y h => by rw [h.space]
  cases x.space.lattice.successors id with
  | error failure => exact hQ.throw failure
  | ok successors => exact hQ.enqueueNew successors queue

theorem Queueing.prune (id : Nat) (queue : List BestFirst.Entry) :
    Q (BestFirst.prune id queue) :=
  hQ.bind (hQ.mark id _ (Or.inr rfl)) fun _ => hQ.pure queue

end

section
variable (hQ : Searching Q)
include hQ

theorem Searching.visit (monotone : Bool) (e : BestFirst.Entry) (queue : List BestFirst.Entry) :
    Q (BestFirst.visit monotone e queue) := by
  refine hQ.read (fun x => ?_) fun x y h => by rw [h.verdict]
  have hcount : Q (Exploration.count Counters.pruned) := hQ.count _ (Or.inl rfl)
  cases BestFirst.verdict monotone x e with
  | drop => exact hQ.bind hcount fun _ => hQ.toQueueing.prune e.id queue
  | pass => exact hQ.bind hcount fun _ => hQ.toQueueing.expand e.id queue
  | check =>
    refine hQ.bind (hQ.assureChecked e.id) fun _ => hQ.bind (hQ.track e.id) fun _ => ?_
    refine hQ.read (fun z => ?_) fun x y h => by rw [h.space]
    split_ifs
    · exact hQ.toQueueing.prune e.id queue
    · exact hQ.toQueueing.expand e.id queue

theorem Searching.visitAll (clock : Nat → Nat) (monotone : Bool) (visits turn : Nat)
    (queue : List BestFirst.Entry) :
    Q (BestFirst.visitAll clock monotone visits turn queue) := by
  induction visits generalizing turn queue with
  | zero => exact hQ.finish true
  | succ visits ih =>
    cases queue with
    | nil => exact hQ.finish true
    | cons e queue =>
      refine hQ.read (fun x => ?_) fun x y h => by rw [h.mustStop]
      split_ifs
      · exact hQ.finish false
      · exact hQ.bind (hQ.visit monotone e queue) fun queue => ih (turn + 1) queue

end

/-! ## Private walks -/

section
variable (hQ : Listing Q)
include hQ

theorem Listing.collect (ids : List Nat) (pool : PrivateWalk.Pool) :
    Q (PrivateWalk.collect ids pool) := by
  induction ids generalizing pool with
  | nil => exact hQ.pure pool
  | cons id rest ih =>
    unfold PrivateWalk.collect
    split_ifs
    · exact ih pool
    · refine hQ.bind (hQ.assureChecked id) fun _ => hQ.bind (hQ.visited id) fun _ => ?_
      refine hQ.read (fun x => ?_) fun x y h => by rw [h.space]
      cases PrivateWalk.scoreOf x.space id with
      | error failure => exact hQ.throw failure
      | ok score => exact ih _

theorem Listing.expand (pivot : Nat) (pool : PrivateWalk.Pool) :
    Q (PrivateWalk.expand pivot pool) := by
  refine hQ.bind (hQ.mark pivot _ (Or.inl rfl)) fun _ => ?_
  refine hQ.read (fun x => ?_) fun x y h => by rw [h.space]
  cases x.space.lattice.predecessors pivot with
  | error failure => exact hQ.throw failure
  | ok predecessors => exact hQ.bind (hQ.collect predecessors pool) fun pool => hQ.pure _

end

section
variable (hQ : Searching Q)
include hQ

theorem Searching.walk (clock : Nat → Nat) (epsilon : Float)
    (hdraw : ∀ pool, Q (PrivateWalk.draw epsilon pool)) (steps turn pivot : Nat)
    (pool : PrivateWalk.Pool) : Q (PrivateWalk.walk clock epsilon steps turn pivot pool) := by
  induction steps generalizing turn pivot pool with
  | zero => exact hQ.finish false
  | succ steps ih =>
    refine hQ.bind (hQ.toListing.expand pivot pool) fun pool => ?_
    split_ifs
    · exact hQ.finish false
    · refine hQ.bind (hdraw pool) fun choice => ?_
      cases choice with
      | none => exact hQ.finish false
      | some next =>
        refine hQ.bind (hQ.count _ (Or.inr rfl)) fun _ => hQ.bind (hQ.track next) fun _ => ?_
        refine hQ.read (fun x => ?_) fun x y h => by rw [h.mustStop]
        split_ifs
        · exact hQ.finish false
        · exact ih (turn + 1) next pool

end

/-! ## Traversals -/

def Search.traversal (s : Search) (clock : Nat → Nat) (metric : Metric) (l : Lattice) :
    Exploring Bool :=
  match s.plan with
  | .bestFirst => do
    let queue ← BestFirst.enqueue l.bottom []
    BestFirst.visitAll clock metric.isMonotone l.size 0 queue
  | .privateWalk _ perStep steps => do
    assureChecked l.top
    track l.top
    PrivateWalk.walk clock perStep steps 0 l.top []

theorem Searching.traversal (hQ : Searching Q) {s : Search}
    (hdraw : s.plan ≠ .bestFirst → ∀ epsilon pool, Q (PrivateWalk.draw epsilon pool))
    (clock : Nat → Nat) (metric : Metric) (l : Lattice) : Q (s.traversal clock metric l) := by
  unfold Search.traversal
  cases hplan : s.plan with
  | bestFirst =>
    exact hQ.bind (hQ.toQueueing.enqueue l.bottom []) fun queue =>
      hQ.visitAll clock metric.isMonotone l.size 0 queue
  | privateWalk epsilon perStep steps =>
    have hdraw := hdraw (by rw [hplan]; exact nofun) perStep
    exact hQ.bind (hQ.assureChecked l.top) fun _ => hQ.bind (hQ.track l.top) fun _ =>
      hQ.walk clock perStep hdraw steps 0 l.top []

end Recoding
