import Recoding.Proofs.Certified
import Recoding.Proofs.Check.Capable
import Recoding.Proofs.Search.Exhaustion

/-!
# Searches do not fail

From a state with a capable checker every part of a search succeeds and leaves such a state, as
long as it works on transformations of its lattice. So do whole traversals, whatever the clock and
the draws are.
-/

namespace Recoding

open Exploration

namespace Exploration

/-! ## Success -/

def Succeeds {α : Type} (m : Exploring α) (x : Exploration) (post : α → Exploration → Prop) :
    Prop := ∃ a y, run m x = (.ok a, y) ∧ post a y

section
variable {α β : Type} {m : Exploring α} {f : α → Exploring β} {x : Exploration}
  {post : α → Exploration → Prop}

theorem succeeds_pure {a : α} (h : post a x) : Succeeds (pure a) x post := ⟨a, x, rfl, h⟩

theorem succeeds_after {last : β → Exploration → Prop} {a : α} {y : Exploration}
    (hrun : run m x = (.ok a, y)) (hf : Succeeds (f a) y last) : Succeeds (m >>= f) x last := by
  unfold Succeeds
  rw [run_bind_of_ok hrun]
  exact hf

theorem Succeeds.bind {last : β → Exploration → Prop} (hm : Succeeds m x post)
    (hf : ∀ a y, post a y → Succeeds (f a) y last) : Succeeds (m >>= f) x last := by
  obtain ⟨a, y, hrun, hpost⟩ := hm
  exact succeeds_after hrun (hf a y hpost)

theorem succeeds_get {f : Exploration → Exploring β} {last : β → Exploration → Prop}
    (h : Succeeds (f x) x last) : Succeeds (get >>= f) x last := h

theorem Succeeds.keeping {P : Exploration → Prop} (hm : Succeeds m x post) (hk : Keeps P m)
    (hx : P x) : Succeeds m x fun a y => post a y ∧ P y := by
  obtain ⟨a, y, hrun, hpost⟩ := hm
  exact ⟨a, y, hrun, hpost, hk.of_run hrun hx⟩

end

/-! ## States -/

/-- A state from which a search of a lattice cannot fail. -/
structure Sturdy (goal : Objective) (l : Lattice) (x : Exploration) : Prop where
  lattice : x.space.lattice = l
  objective : x.progress.objective = goal
  indexed : x.space.Indexed
  capable : x.checker.Capable l
  scores : goal = .score → x.checker.Scores
  small : ∀ id score, x.space.scoreOf id = some score → |score| ≤ 2 ^ 1023
  optimum : ∀ id ∈ x.progress.optimum, id < l.size

section
variable {goal : Objective} {l : Lattice} {x : Exploration} (h : Sturdy goal l x)
include h

theorem Sturdy.levelsOf {id : Nat} (hid : id < l.size) :
    x.space.lattice.levelsOf id = .ok (l.levelsAt id) := by
  rw [h.lattice]
  exact Lattice.levelsOf_levelsAt hid

/-- One node may be written, if it has the levels of its transformation and no large score. -/
theorem Sturdy.withNode {space : SolutionSpace} (hlattice : space.lattice = x.space.lattice)
    {id : Nat} {node : Node}
    (hnodes : ∀ other, space.node? other = (x.space.put id node).node? other)
    (hlevels : x.space.lattice.levelsOf id = .ok node.levels)
    (hsmall : ∀ score ∈ node.score, |score| ≤ 2 ^ 1023) :
    Sturdy goal l { x with space } where
  lattice := hlattice.trans h.lattice
  objective := h.objective
  indexed other own hown := by
    rw [hlattice]
    exact h.indexed.put hlevels other own ((hnodes other).symm.trans hown)
  capable := h.capable
  scores := h.scores
  small other score hscore := by
    have hput : (x.space.put id node).scoreOf other = some score := by
      unfold SolutionSpace.scoreOf at hscore ⊢
      rwa [← hnodes]
    rw [SolutionSpace.scoreOf_put] at hput
    split_ifs at hput
    · exact hsmall score hput
    · exact h.small other score hput
  optimum := h.optimum

theorem Sturdy.modify {id : Nat} (hid : id < l.size) {f : Node → Node}
    (hlevels : ∀ n, (f n).levels = n.levels) (hscore : ∀ n, (f n).score = n.score) :
    Succeeds (onSpace (·.modify id f)) x fun _ y => Sturdy goal l y := by
  obtain ⟨node, hnode, hown, -⟩ := SolutionSpace.nodeOrUnknown_ok h.indexed (h.levelsOf hid)
  refine ⟨(), { x with space := x.space.put id (f node) }, run_onSpace ?_, ?_⟩
  · rw [SolutionSpace.modify, hnode]
    rfl
  · refine h.withNode rfl (fun _ => rfl) ?_ ?_
    · rw [hlevels, hown]
      exact h.levelsOf hid
    · rw [hscore, SolutionSpace.nodeOrUnknown_score hnode]
      exact h.small id

theorem Sturdy.mark {id : Nat} (hid : id < l.size) (marks : Nat) :
    Succeeds (onSpace (·.mark id marks)) x fun _ y => Sturdy goal l y :=
  h.modify hid (fun _ => rfl) fun _ => rfl

theorem Sturdy.bound {id : Nat} (hid : id < l.size) (lowerBound : Loss) :
    Succeeds (onSpace (·.bound id lowerBound)) x fun _ y => Sturdy goal l y :=
  h.modify hid (fun _ => rfl) fun _ => rfl

theorem Sturdy.count (f : Counters → Counters) :
    Succeeds (count f) x fun _ y => Sturdy goal l y :=
  ⟨(), _, rfl, h.lattice, h.objective, h.indexed, h.capable.count f, h.scores, h.small, h.optimum⟩

theorem Sturdy.finish (proved : Bool) :
    Succeeds (finish proved) x fun _ y => Sturdy goal l y :=
  ⟨proved, _, rfl, h.lattice, h.objective, h.indexed, h.capable, h.scores, h.small, h.optimum⟩

theorem Sturdy.track (id : Nat) : Succeeds (track id) x fun _ y => Sturdy goal l y := by
  refine ⟨(), _, rfl, h.lattice, (x.progress.track_objective x.space id).trans h.objective,
    h.indexed, h.capable, h.scores, h.small, fun o ho => ?_⟩
  rcases x.progress.optimum_track x.space id with hsame | ⟨hnew, hchecked, -⟩
  · exact h.optimum o (hsame ▸ ho)
  · cases hnew.symm.trans ho
    rw [SolutionSpace.has_checked, SolutionSpace.marked] at hchecked
    cases hnode : x.space.node? id with
    | none =>
      rw [hnode] at hchecked
      cases hchecked
    | some node =>
      rw [← h.lattice]
      exact (Lattice.levelsOf_ok (h.indexed id node hnode)).1

theorem Sturdy.assureChecked {id : Nat} (hid : id < l.size) :
    Succeeds (assureChecked id) x fun _ y => Sturdy goal l y := by
  have hcapable : x.checker.Capable x.space.lattice := h.lattice.symm ▸ h.capable
  have hsize : id < x.space.lattice.size := h.lattice.symm ▸ hid
  unfold Exploration.assureChecked Succeeds
  rw [run_get_bind]
  split_ifs
  · exact ⟨(), x, rfl, h⟩
  · obtain ⟨e, after, recorded, hcheck, hafter, hrecord, hsmall⟩ :=
      hcapable.check hsize false x.progress.objective fun ho => h.scores (h.objective.symm.trans ho)
    have hagrees := (x.checker.agrees_check x.space id false x.progress.objective).1
    rw [hcheck] at hagrees ⊢
    obtain ⟨node, hnode, hnodes⟩ := SolutionSpace.record_nodes hrecord
    obtain ⟨own, hown, hlevels, -⟩ := SolutionSpace.nodeOrUnknown_ok h.indexed (h.levelsOf hid)
    cases hnode.symm.trans hown
    have hwritten := h.withNode (SolutionSpace.record_frame hrecord).1 hnodes
      (by rw [node.record_levels, hlevels]; exact h.levelsOf hid)
      fun score hscore => by
        rw [node.record_score, SolutionSpace.nodeOrUnknown_score hnode, Option.mem_def,
          Option.or_eq_some_iff] at hscore
        exact hscore.elim (h.small id score) fun hnew => hsmall score hnew.2
    exact ⟨(), _, rfl, hwritten.lattice, hwritten.objective, hwritten.indexed,
      h.lattice ▸ hafter, fun hg => (h.scores hg).agrees hagrees, hwritten.small,
      hwritten.optimum⟩

end

theorem Sturdy.settle {l : Lattice} {x : Exploration} (h : Sturdy .score l x) {id : Nat}
    (hid : id < l.size) : Succeeds (Exploration.assureChecked id) x fun _ y =>
      Sturdy .score l y ∧ y.space.Settled id := by
  obtain ⟨_, y, hrun, hy⟩ := h.assureChecked hid
  exact ⟨(), y, hrun, hy, settled_assureChecked hrun h.objective⟩

end Exploration

open Exploration

variable {goal : Objective} {l : Lattice} {x : Exploration}

/-! ## Best-first search -/

namespace BestFirst

/-- What a part of a best-first search leaves. -/
def Holds (goal : Objective) (l : Lattice) (queue : List Entry) (x : Exploration) : Prop :=
  Sturdy goal l x ∧ Waiting l queue

section
variable {queue : List Entry} (h : Holds goal l queue x)
include h

theorem Holds.enqueue {id : Nat} (hid : id < l.size) :
    Succeeds (enqueue id queue) x (Holds goal l) := by
  obtain ⟨hx, hq⟩ := h
  refine (hx.mark hid Mark.visited).bind fun _ y hy => ?_
  obtain ⟨bound, hbound⟩ := Checker.lowerBound_ok
    (hy.capable.covers.admits (Lattice.levelsOf_levelsAt hid)) hy.capable.ready
  have hentry : ∀ bound, (⟨bound, levelSum (l.levelsAt id), id⟩ : Entry).id < l.size := fun _ => hid
  refine succeeds_get ?_
  rw [hy.levelsOf hid]
  refine succeeds_after (run_liftExcept _ y) ?_
  rw [hbound]
  refine succeeds_after (run_liftExcept _ y) ?_
  refine (hy.bound hid bound).bind fun _ z hz => ?_
  exact succeeds_pure ⟨hz, hq.insert (hentry bound.value)⟩

omit h in
theorem Holds.enqueueNew {ids : List Nat} (hids : ∀ id ∈ ids, id < l.size)
    (h : Holds goal l queue x) : Succeeds (enqueueNew ids queue) x (Holds goal l) := by
  induction ids generalizing x queue with
  | nil => exact succeeds_pure h
  | cons id rest ih =>
    obtain ⟨hid, hrest⟩ := List.forall_mem_cons.mp hids
    refine succeeds_get ?_
    split_ifs
    · exact ih hrest h
    · exact (h.enqueue hid).bind fun _ _ hy => ih hrest hy

theorem Holds.expand {id : Nat} (hid : id < l.size) :
    Succeeds (expand id queue) x (Holds goal l) := by
  obtain ⟨hx, hq⟩ := h
  refine (hx.mark hid Mark.expanded).bind fun _ y hy => succeeds_get ?_
  obtain ⟨ids, hids, hstep⟩ := Lattice.exists_successors hid
  rw [hy.lattice, hids]
  exact Holds.enqueueNew (fun next hnext => ((hstep next).mp hnext).right) ⟨hy, hq⟩

theorem Holds.prune {id : Nat} (hid : id < l.size) :
    Succeeds (prune id queue) x (Holds goal l) :=
  (h.1.mark hid Mark.successorsPruned).bind fun _ _ hy => succeeds_pure ⟨hy, h.2⟩

theorem Holds.visit (monotone : Bool) {e : Entry} (he : e.id < l.size) :
    Succeeds (visit monotone e queue) x (Holds goal l) := by
  obtain ⟨hx, hq⟩ := h
  refine succeeds_get ?_
  cases verdict monotone x e with
  | drop => exact (hx.count _).bind fun _ _ hy => Holds.prune ⟨hy, hq⟩ he
  | pass => exact (hx.count _).bind fun _ _ hy => Holds.expand ⟨hy, hq⟩ he
  | check =>
    refine (hx.assureChecked he).bind fun _ y hy => (hy.track e.id).bind fun _ z hz => ?_
    refine succeeds_get ?_
    split_ifs
    · exact Holds.prune ⟨hz, hq⟩ he
    · exact Holds.expand ⟨hz, hq⟩ he

end

theorem Holds.visitAll (clock : Nat → Nat) (monotone : Bool) (visits turn : Nat)
    {queue : List Entry} (h : Holds goal l queue x) :
    Succeeds (visitAll clock monotone visits turn queue) x fun _ y => Sturdy goal l y := by
  induction visits generalizing turn queue x with
  | zero => exact h.1.finish true
  | succ visits ih =>
    cases queue with
    | nil => exact h.1.finish true
    | cons e queue =>
      obtain ⟨he, hq⟩ := List.forall_mem_cons.mp h.2
      refine succeeds_get ?_
      split_ifs
      · exact h.1.finish false
      · exact (Holds.visit ⟨h.1, hq⟩ monotone he).bind fun _ _ hy => ih (turn + 1) hy

end BestFirst

/-! ## Private walks -/

namespace PrivateWalk

/-- All candidates are in the lattice. -/
def Open (l : Lattice) (pool : Pool) : Prop := ∀ k ∈ pool.keys, k < l.size

/-- What a part of a private walk leaves. -/
def Holds (l : Lattice) (pool : Pool) (x : Exploration) : Prop := Sturdy .score l x ∧ Open l pool

theorem exists_scoreOf (hx : Sturdy goal l x) {id : Nat} (hid : x.space.Settled id) :
    ∃ score, scoreOf x.space id = .ok score := by
  obtain ⟨found, hfound⟩ := hid
  have hscore := hfound.scoreOf
  obtain ⟨score, hcertified⟩ := certified_ok (hx.small id found.score hscore)
  refine ⟨score, ?_⟩
  unfold SolutionSpace.scoreOf at hscore
  rw [scoreOf, hscore]
  exact hcertified

theorem Holds.collect {ids : List Nat} (hids : ∀ id ∈ ids, id < l.size) {pool : Pool}
    (h : Holds l pool x) : Succeeds (collect ids pool) x (Holds l) := by
  induction ids generalizing x pool with
  | nil => exact succeeds_pure h
  | cons id rest ih =>
    obtain ⟨hid, hrest⟩ := List.forall_mem_cons.mp hids
    unfold PrivateWalk.collect
    split_ifs
    · exact ih hrest h
    · refine (h.1.settle hid).bind fun _ y hy => ?_
      obtain ⟨hy, hsettled⟩ := hy
      refine ((hy.mark hid Mark.visited).keeping ((steady_settled id).visited id) hsettled).bind
        fun _ z hz => succeeds_get ?_
      obtain ⟨hz, hsettled⟩ := hz
      obtain ⟨score, hscore⟩ := exists_scoreOf hz hsettled
      rw [hscore]
      refine ih hrest ⟨hz, fun k hk => ?_⟩
      rcases Pool.mem_keys_insert.mp hk with rfl | hk
      · exact hid
      · exact h.2 k hk

theorem Holds.expand {pivot : Nat} (hpivot : pivot < l.size) {pool : Pool} (h : Holds l pool x) :
    Succeeds (expand pivot pool) x (Holds l) := by
  refine (h.1.mark hpivot Mark.expanded).bind fun _ y hy => succeeds_get ?_
  have hlevels := Lattice.levelsOf_levelsAt hpivot
  rw [hy.lattice]
  cases hids : l.predecessors pivot with
  | error failure =>
    rw [Lattice.predecessors, hlevels] at hids
    cases hids
  | ok ids =>
    have hstep := (Lattice.predecessors_ok hids).2
    refine (Holds.collect (fun id hid => ((hstep id).mp hid).left) ⟨hy, h.2⟩).bind
      fun last z hz => succeeds_pure ⟨hz.1, fun k hk => ?_⟩
    exact hz.2 k (Pool.mem_keys_erase.mp hk).1

theorem Holds.draw {epsilon : Float} {pool : Pool} (h : Holds l pool x) :
    Succeeds (draw epsilon pool) x fun choice y =>
      Sturdy .score l y ∧ ∀ next ∈ choice, next < l.size := by
  obtain ⟨hx, hopen⟩ := h
  refine ⟨_, _, rfl, ⟨hx.lattice, hx.objective, hx.indexed, hx.capable, hx.scores, hx.small,
    hx.optimum⟩, fun next hnext => ?_⟩
  exact hopen next (Mechanism.select_mem hnext)

theorem Holds.walk (clock : Nat → Nat) (epsilon : Float) (steps turn : Nat) {pivot : Nat}
    (hpivot : pivot < l.size) {pool : Pool} (h : Holds l pool x) :
    Succeeds (walk clock epsilon steps turn pivot pool) x fun _ y => Sturdy .score l y := by
  induction steps generalizing turn pivot pool x with
  | zero => exact h.1.finish false
  | succ steps ih =>
    refine (h.expand hpivot).bind fun last y hy => ?_
    split_ifs
    · exact hy.1.finish false
    · refine hy.draw.bind fun choice z ⟨hz, hchoice⟩ => ?_
      cases choice with
      | none => exact hz.finish false
      | some next =>
        refine (hz.count Counters.draw).bind fun _ counted hcounted =>
          (hcounted.track next).bind fun _ tracked htracked => succeeds_get ?_
        split_ifs
        · exact htracked.finish false
        · exact ih (turn + 1) (hchoice next rfl) ⟨htracked, fun k hk => hy.2 k hk⟩

end PrivateWalk

/-! ## Traversals -/

namespace Search

variable {s : Search} {c : Checker}

/-- A search of a new space begins where it cannot fail. -/
theorem sturdy_begun (hc : c.Capable l) (hobjective : s.progress.objective = s.plan.objective)
    (hscores : s.plan.objective = .score → c.Scores) (hoptimum : s.progress.optimum = none) :
    Sturdy s.plan.objective l (s.begun c (.ofLattice l)) := by
  have hsmall : ∀ id score, (SolutionSpace.ofLattice l).scoreOf id = some score →
      |score| ≤ 2 ^ 1023 := by
    intro id score hscore
    simp [SolutionSpace.scoreOf, SolutionSpace.node?, SolutionSpace.ofLattice] at hscore
  have hnone : ∀ id ∈ s.progress.optimum, id < l.size := by
    rw [hoptimum]
    exact fun id hid => absurd hid (Option.not_mem_none id)
  have hindexed := SolutionSpace.indexed_ofLattice l
  unfold begun
  cases hplan : s.plan with
  | bestFirst =>
    rw [hplan] at hobjective hscores
    exact ⟨rfl, hobjective, hindexed, hc, hscores, hsmall, hnone⟩
  | privateWalk epsilon perStep steps =>
    rw [hplan] at hobjective hscores
    exact ⟨rfl, hobjective, hindexed, hc.setRetention .all, hscores, hsmall, hnone⟩

/-- A search of a new space succeeds, whatever the clock and the draws are. -/
theorem traverse_succeeds (hc : c.Capable l) (hobjective : s.progress.objective = s.plan.objective)
    (hscores : s.plan.objective = .score → c.Scores) (hoptimum : s.progress.optimum = none)
    (clock : Nat → Nat) : ∃ proved, (s.traverse clock c (.ofLattice l)).1 = .ok proved ∧
      Sturdy s.plan.objective l (s.ended clock c (.ofLattice l)) := by
  have hbegun := sturdy_begun hc hobjective hscores hoptimum
  have hsucceeds : Succeeds (s.traversal clock c.metric l) (s.begun c (.ofLattice l))
      fun _ y => Sturdy s.plan.objective l y := by
    unfold traversal
    cases hplan : s.plan with
    | bestFirst =>
      rw [hplan] at hbegun
      have hholds : BestFirst.Holds .loss l [] (s.begun c (.ofLattice l)) :=
        ⟨hbegun, fun _ he => absurd he List.not_mem_nil⟩
      exact (hholds.enqueue l.size_pos).bind fun queue y hy => hy.visitAll clock _ _ 0
    | privateWalk epsilon perStep steps =>
      rw [hplan] at hbegun
      have htop : l.top < l.size := Nat.sub_lt l.size_pos Nat.one_pos
      refine (hbegun.assureChecked htop).bind fun _ y hy => (hy.track l.top).bind fun _ z hz => ?_
      exact PrivateWalk.Holds.walk clock perStep steps 0 htop
        ⟨hz, fun _ hk => absurd hk List.not_mem_nil⟩
  obtain ⟨proved, y, hrun, hy⟩ := hsucceeds
  obtain ⟨hanswer, hended⟩ :=
    Prod.mk.inj ((s.run_traversal clock c (.ofLattice l)).symm.trans hrun)
  exact ⟨proved, hanswer, hended ▸ hy⟩

end Search
end Recoding
