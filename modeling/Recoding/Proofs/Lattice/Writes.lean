import Recoding.Proofs.Lattice.Nodes

/-!
# Nodes are written once

Whatever is done to a solution space, the verdict and the loss of a transformation are those of
its first evaluation, its score is the first one that an evaluation has, and its bound is that of
the first evaluation or else the first one recorded. So what a node holds is told by what was
written to it, in the order of writing, and not by what was written to other nodes.
-/

namespace Recoding

inductive SpaceStep where
  | create (id : Nat)
  | mark (id marks : Nat)
  | bound (id : Nat) (lowerBound : Loss)
  | record (id : Nat) (e : Evaluation)
  | setPredictable (predictable : Bool)

namespace SpaceStep

def target? : SpaceStep → Option Nat
  | .create id | .mark id _ | .bound id _ | .record id _ => some id
  | .setPredictable _ => none

/-- An operation that leaves it to evaluations to set their marks. -/
def Harmless : SpaceStep → Prop
  | .mark _ marks => marks &&& (Mark.checked ||| Mark.anonymous ||| Mark.notAnonymous) = 0
  | _ => True

def onNode : SpaceStep → Node → Node
  | .create _, n | .setPredictable _, n => n
  | .mark _ marks, n => n.mark marks
  | .bound _ lowerBound, n => n.bound lowerBound
  | .record _ e, n => n.record e

/-- What an operation makes of the node of a transformation, which it may be about or not. -/
def onOwn (id : Nat) (n : Node) (step : SpaceStep) : Node :=
  if step.target? = some id then step.onNode n else n

def evaluations (id : Nat) (steps : List SpaceStep) : List Evaluation :=
  steps.filterMap fun
    | .record own e => if own = id then some e else none
    | _ => none

/-- The bounds that are recorded for a transformation without an evaluation, in order. -/
def bounds (id : Nat) (steps : List SpaceStep) : List Loss :=
  steps.filterMap fun
    | .bound own lowerBound => if own = id then some lowerBound else none
    | _ => none

theorem evaluations_append (id : Nat) (steps later : List SpaceStep) :
    evaluations id (steps ++ later) = evaluations id steps ++ evaluations id later :=
  List.filterMap_append

theorem bounds_append (id : Nat) (steps later : List SpaceStep) :
    bounds id (steps ++ later) = bounds id steps ++ bounds id later :=
  List.filterMap_append

/-- What is done to other transformations leaves both records as they are. -/
theorem ledger_of_ne {id : Nat} {step : SpaceStep} (h : step.target? ≠ some id) :
    evaluations id [step] = [] ∧ bounds id [step] = [] := by
  cases step with
  | create own | mark own marks | setPredictable predictable => exact ⟨rfl, rfl⟩
  | bound own lowerBound => exact ⟨rfl, by simpa [bounds, target?] using h⟩
  | record own e => exact ⟨by simpa [evaluations, target?] using h, rfl⟩

end SpaceStep

/-! ## Nodes -/

namespace Node

/-- A node holds what its evaluations and bounds say, each in the order of writing. -/
structure Reflects (n : Node) (es : List Evaluation) (bs : List Loss) : Prop where
  checked : n.has Mark.checked = !es.isEmpty
  anonymous : n.has Mark.anonymous = es.head?.any (·.anonymous)
  notAnonymous : n.has Mark.notAnonymous = es.head?.any (!·.anonymous)
  loss : n.loss = es.head?.map (·.loss)
  score : n.score = es.findSome? (·.score)
  lowerBound : n.lowerBound = (es.head?.bind (·.lowerBound)).or bs.head?

theorem reflects_unknown (id : Nat) (levels : List Nat) :
    (unknown id levels).Reflects [] [] where
  checked := by simp [has, unknown, Mark.checked]
  anonymous := by simp [has, unknown, Mark.anonymous]
  notAnonymous := by simp [has, unknown, Mark.notAnonymous]
  loss := rfl
  score := rfl
  lowerBound := rfl

section
variable {n : Node} {es : List Evaluation} {bs : List Loss} (h : n.Reflects es bs)
include h

theorem Reflects.unchecked_iff : n.has Mark.checked = false ↔ es = [] := by
  rw [h.checked, Bool.not_eq_false', List.isEmpty_iff]

theorem Reflects.mark {marks : Nat}
    (hm : marks &&& (Mark.checked ||| Mark.anonymous ||| Mark.notAnonymous) = 0) :
    (n.mark marks).Reflects es bs := by
  have hkept : ∀ i < 3, (n.mark marks).has (2 ^ i) = n.has (2 ^ i) := by
    intro i hi
    have hbit := congrArg (Nat.testBit · i) hm
    have hlow : (Mark.checked ||| Mark.anonymous ||| Mark.notAnonymous).testBit i = true := by
      interval_cases i <;> rfl
    simp only [Nat.testBit_and, hlow, Bool.and_true, Nat.zero_testBit] at hbit
    rw [has_two_pow, has_two_pow, Node.mark, Nat.testBit_or, hbit, Bool.or_false]
  exact ⟨(hkept 0 (by decide)).trans h.checked, (hkept 1 (by decide)).trans h.anonymous,
    (hkept 2 (by decide)).trans h.notAnonymous, h.loss, h.score, h.lowerBound⟩

theorem Reflects.bound (lowerBound : Loss) :
    (n.bound lowerBound).Reflects es (bs ++ [lowerBound]) where
  checked := h.checked
  anonymous := h.anonymous
  notAnonymous := h.notAnonymous
  loss := h.loss
  score := h.score
  lowerBound := by
    rw [Node.bound, h.lowerBound, List.head?_append, Option.or_assoc]
    rfl

theorem Reflects.record (e : Evaluation) : (n.record e).Reflects (es ++ [e]) bs := by
  have hscore : (n.record e).score = (es ++ [e]).findSome? (·.score) := by
    rw [record_score, h.score, List.findSome?_append, List.findSome?_singleton]
  cases es with
  | nil =>
    have hchecked : n.has Mark.checked = false := h.checked
    have hbit := fun mark (hm : Mark.IsMark mark) => SolutionSpace.record_has n e hchecked hm
    refine ⟨has_checked_record n e, ?_, ?_, ?_, hscore, ?_⟩
    · rw [hbit _ Mark.isMark_anonymous, h.anonymous]
      cases he : e.anonymous <;> simp [he, Mark.checked, Mark.anonymous, Mark.notAnonymous]
    · rw [hbit _ Mark.isMark_notAnonymous, h.notAnonymous]
      cases he : e.anonymous <;> simp [he, Mark.checked, Mark.anonymous, Mark.notAnonymous]
    · simp [Node.record, hchecked]
    · simp [Node.record, hchecked, h.lowerBound]
  | cons first rest =>
    have hchecked : n.has Mark.checked = true := h.checked
    have hrecord : n.record e = { n with score := n.score.or e.score } := by
      simp only [Node.record, hchecked, if_true]
    rw [hrecord] at hscore ⊢
    exact ⟨h.checked, h.anonymous, h.notAnonymous, h.loss, hscore, h.lowerBound⟩

theorem Reflects.onOwn {step : SpaceStep} (hstep : step.Harmless) (id : Nat) :
    (SpaceStep.onOwn id n step).Reflects (es ++ SpaceStep.evaluations id [step])
      (bs ++ SpaceStep.bounds id [step]) := by
  unfold SpaceStep.onOwn
  split_ifs with hid
  · cases step with
    | create own => simpa [SpaceStep.onNode, SpaceStep.evaluations, SpaceStep.bounds] using h
    | mark own marks =>
      simpa [SpaceStep.onNode, SpaceStep.evaluations, SpaceStep.bounds] using h.mark hstep
    | bound own lowerBound =>
      cases hid
      simpa [SpaceStep.onNode, SpaceStep.evaluations, SpaceStep.bounds] using h.bound lowerBound
    | record own e =>
      cases hid
      simpa [SpaceStep.onNode, SpaceStep.evaluations, SpaceStep.bounds] using h.record e
    | setPredictable predictable => cases hid
  · obtain ⟨hes, hbs⟩ := SpaceStep.ledger_of_ne hid
    rwa [hes, hbs, List.append_nil, List.append_nil]

/-- What a node holds after operations, each of which is about it or about another node. -/
theorem Reflects.foldl_onOwn {steps : List SpaceStep} (hsteps : ∀ step ∈ steps, step.Harmless)
    (id : Nat) : (steps.foldl (SpaceStep.onOwn id) n).Reflects
      (es ++ SpaceStep.evaluations id steps) (bs ++ SpaceStep.bounds id steps) := by
  induction steps generalizing n es bs with
  | nil => simpa [SpaceStep.evaluations, SpaceStep.bounds] using h
  | cons step rest ih =>
    obtain ⟨hstep, hrest⟩ := List.forall_mem_cons.mp hsteps
    have hrest := ih (h.onOwn hstep id) hrest
    rwa [List.append_assoc, List.append_assoc, ← SpaceStep.evaluations_append,
      ← SpaceStep.bounds_append] at hrest

end

theorem foldl_onOwn_keeps (property : Node → Prop)
    (hkeeps : ∀ step n, property n → property (SpaceStep.onNode step n)) {n : Node}
    (h : property n) (id : Nat) (steps : List SpaceStep) :
    property (steps.foldl (SpaceStep.onOwn id) n) := by
  induction steps generalizing n with
  | nil => exact h
  | cons step rest ih =>
    refine ih ?_
    unfold SpaceStep.onOwn
    split_ifs
    · exact hkeeps step n h
    · exact h

theorem has_foldl_onOwn {n : Node} {marks : Nat} (h : n.has marks = true) (id : Nat)
    (steps : List SpaceStep) : (steps.foldl (SpaceStep.onOwn id) n).has marks = true := by
  refine foldl_onOwn_keeps (fun m => m.has marks = true) (fun step m hm => ?_) h id steps
  cases step with
  | mark own new => exact has_of_or rfl hm
  | record own e => exact has_record e hm
  | create own | bound own lowerBound | setPredictable predictable => exact hm

theorem foldl_onOwn_levels (n : Node) (id : Nat) (steps : List SpaceStep) :
    (steps.foldl (SpaceStep.onOwn id) n).levels = n.levels := by
  refine foldl_onOwn_keeps (fun m => m.levels = n.levels) (fun step m hm => ?_) rfl id steps
  cases step with
  | record own e => exact (record_levels m e).trans hm
  | create own | mark own marks | bound own lowerBound | setPredictable predictable => exact hm

end Node

/-! ## Spaces -/

namespace SolutionSpace

def attempt (s : SolutionSpace) : SpaceStep → Except Failure SolutionSpace
  | .create id => s.create id
  | .mark id marks => s.mark id marks
  | .bound id lowerBound => s.bound id lowerBound
  | .record id e => s.record id e
  | .setPredictable predictable => .ok (s.setPredictable predictable)

def perform (s : SolutionSpace) (step : SpaceStep) : SolutionSpace :=
  match s.attempt step with
  | .error _ => s
  | .ok after => after

def performAll (l : Lattice) (steps : List SpaceStep) : SolutionSpace :=
  steps.foldl perform (ofLattice l)

theorem performAll_append (l : Lattice) (steps later : List SpaceStep) :
    performAll l (steps ++ later) = later.foldl perform (performAll l steps) :=
  List.foldl_append

section
variable {s : SolutionSpace} {l : Lattice} (h : s.Housed l)
include h

/-- A transformation of the lattice has a node, or one about which nothing is known. -/
theorem Housed.nodeOrUnknown {id : Nat} : (∃ node, s.nodeOrUnknown id = .ok node) ↔
    id < l.size := by
  refine ⟨fun ⟨node, hnode⟩ => h.lt_size hnode, fun hid => ?_⟩
  unfold SolutionSpace.nodeOrUnknown
  cases s.node? id with
  | some node => exact ⟨node, rfl⟩
  | none => exact ⟨_, by rw [h.1, Lattice.levelsOf_levelsAt hid, map_ok]⟩

theorem Housed.attempt {step : SpaceStep} {after : SolutionSpace}
    (hafter : s.attempt step = .ok after) : after.Housed l := by
  cases step with
  | create id => exact h.modify hafter
  | mark id marks => exact h.modify hafter
  | bound id lowerBound => exact h.modify hafter
  | record id e => exact h.record hafter
  | setPredictable predictable =>
    cases hafter
    exact h

/-- Exactly the operations on transformations of the lattice succeed. -/
theorem Housed.attempt_iff (step : SpaceStep) :
    (∃ after, s.attempt step = .ok after) ↔ ∀ id, step.target? = some id → id < l.size := by
  have hmodify : ∀ id f, (∃ after, s.modify id f = .ok after) ↔ id < l.size := by
    intro id f
    rw [← h.nodeOrUnknown]
    exact ⟨fun ⟨_, hafter⟩ => (map_eq_ok.mp hafter).imp fun _ hnode => hnode.1,
      fun ⟨node, hnode⟩ => ⟨_, map_eq_ok.mpr ⟨node, hnode, rfl⟩⟩⟩
  cases step with
  | create id | mark id marks | bound id lowerBound =>
    exact (hmodify id _).trans (by simp [SpaceStep.target?])
  | record id e =>
    have hrecord : (∃ after, s.record id e = .ok after) ↔ id < l.size := by
      rw [← h.nodeOrUnknown]
      exact ⟨fun ⟨_, hafter⟩ => (bind_eq_ok.mp hafter).imp fun _ hnode => hnode.1,
        fun ⟨node, hnode⟩ => ⟨_, bind_eq_ok.mpr ⟨node, hnode, rfl⟩⟩⟩
    exact hrecord.trans (by simp [SpaceStep.target?])
  | setPredictable predictable => exact iff_of_true ⟨_, rfl⟩ nofun

theorem Housed.perform (step : SpaceStep) : (s.perform step).Housed l := by
  unfold SolutionSpace.perform
  cases hafter : s.attempt step with
  | error e => exact h
  | ok after => exact h.attempt hafter

end

theorem nodeOrUnknown_ofLattice {l : Lattice} {id : Nat} (h : id < l.size) :
    (ofLattice l).nodeOrUnknown id = .ok (.unknown id (l.levelsAt id)) := by
  unfold SolutionSpace.nodeOrUnknown
  have hnone : (ofLattice l).node? id = none := by simp [node?, ofLattice]
  rw [hnone, (housed_ofLattice l).1, Lattice.levelsOf_levelsAt h, map_ok]

theorem housed_performAll (l : Lattice) (steps : List SpaceStep) :
    (performAll l steps).Housed l := by
  induction steps using List.reverseRecOn with
  | nil => exact housed_ofLattice l
  | append_singleton steps step ih =>
    rw [performAll_append]
    exact ih.perform step

section
variable {s : SolutionSpace} {step : SpaceStep}

theorem attempt_nodes {after : SolutionSpace} {id : Nat} (h : s.attempt step = .ok after)
    (hid : step.target? = some id) : ∃ node, s.nodeOrUnknown id = .ok node ∧
      ∀ other, after.node? other = (s.put id (step.onNode node)).node? other := by
  cases step with
  | record own e =>
    cases hid
    exact record_nodes h
  | setPredictable predictable => cases hid
  | create own | mark own marks | bound own lowerBound =>
    cases hid
    obtain ⟨node, hnode, rfl⟩ := map_eq_ok.mp h
    exact ⟨node, hnode, fun _ => rfl⟩

theorem perform_node?_of_ne {id : Nat} (hid : step.target? ≠ some id) :
    (s.perform step).node? id = s.node? id := by
  unfold perform
  cases hafter : s.attempt step with
  | error e => rfl
  | ok after =>
    cases htarget : step.target? with
    | none =>
      cases step with
      | setPredictable predictable =>
        cases hafter
        rfl
      | create own | mark own marks | bound own lowerBound | record own e => cases htarget
    | some own =>
      obtain ⟨node, -, hnodes⟩ := attempt_nodes hafter htarget
      rw [hnodes, node?_put, if_neg]
      rintro rfl
      exact hid htarget

end

/-! ## Runs -/

section
variable {s : SolutionSpace} {l : Lattice} (h : s.Housed l)
include h

/-- A node is changed by the operations on it, and by no others. -/
theorem Housed.perform_node {id : Nat} {node : Node} (hnode : s.nodeOrUnknown id = .ok node)
    (step : SpaceStep) : (s.perform step).nodeOrUnknown id = .ok (step.onOwn id node) := by
  unfold SpaceStep.onOwn
  split_ifs with hid
  · obtain ⟨after, hafter⟩ := (h.attempt_iff step).mpr fun own hown =>
      Option.some.inj (hid.symm.trans hown) ▸ h.lt_size hnode
    obtain ⟨own, hown, hnodes⟩ := attempt_nodes hafter hid
    cases hown.symm.trans hnode
    rw [SolutionSpace.perform, hafter]
    unfold SolutionSpace.nodeOrUnknown
    rw [hnodes, node?_put, if_pos rfl]
  · unfold SolutionSpace.nodeOrUnknown at hnode ⊢
    rwa [perform_node?_of_ne hid, (h.perform step).1, ← h.1]

theorem Housed.foldl_perform_node {id : Nat} {node : Node} (hnode : s.nodeOrUnknown id = .ok node)
    (later : List SpaceStep) : (later.foldl SolutionSpace.perform s).nodeOrUnknown id =
      .ok (later.foldl (SpaceStep.onOwn id) node) := by
  induction later generalizing s node with
  | nil => exact hnode
  | cons step rest ih => exact ih (h.perform step) (h.perform_node hnode step)

end

open SpaceStep (evaluations bounds)

/-- The node of a transformation is what the operations on it make of an unknown one. -/
theorem performAll_node (l : Lattice) (steps : List SpaceStep) {id : Nat} (hid : id < l.size) :
    (performAll l steps).nodeOrUnknown id =
      .ok (steps.foldl (SpaceStep.onOwn id) (.unknown id (l.levelsAt id))) :=
  (housed_ofLattice l).foldl_perform_node (nodeOrUnknown_ofLattice hid) steps

theorem reflects_performAll {l : Lattice} {steps : List SpaceStep}
    (hflags : ∀ step ∈ steps, step.Harmless) {id : Nat} {node : Node}
    (hnode : (performAll l steps).nodeOrUnknown id = .ok node) :
    node.Reflects (evaluations id steps) (bounds id steps) := by
  rw [performAll_node l steps ((housed_performAll l steps).lt_size hnode)] at hnode
  cases hnode
  exact (Node.reflects_unknown id _).foldl_onOwn hflags id

/-- Nodes are written once: a transformation is checked from its first evaluation on, which
decides its loss and its verdict for good. -/
theorem write_once (l : Lattice) {steps : List SpaceStep}
    (hflags : ∀ step ∈ steps, step.Harmless) :
    (∀ step : SpaceStep, (∃ after, (performAll l steps).attempt step = .ok after) ↔
      ∀ id, step.target? = some id → id < l.size) ∧
    (∀ step id, step.target? ≠ some id →
      ((performAll l steps).perform step).node? id = (performAll l steps).node? id) ∧
    (∀ id, l.size ≤ id → (performAll l steps).node? id = none) ∧
    ∀ id < l.size, ∃ node, (performAll l steps).nodeOrUnknown id = .ok node ∧
      node.Reflects (evaluations id steps) (bounds id steps) ∧
      ∀ later, ∃ after, (performAll l (steps ++ later)).nodeOrUnknown id = .ok after ∧
        (∀ marks, node.has marks = true → after.has marks = true) ∧
        (node.has Mark.checked = true → (∀ step ∈ later, step.Harmless) →
          after.loss = node.loss ∧ after.has Mark.anonymous = node.has Mark.anonymous ∧
            after.has Mark.notAnonymous = !node.has Mark.anonymous) := by
  have h := housed_performAll l steps
  refine ⟨h.attempt_iff, fun step id => perform_node?_of_ne, fun id => h.node?_eq_none,
    fun id hid => ?_⟩
  have hnode := performAll_node l steps hid
  have hreflects := reflects_performAll hflags hnode
  refine ⟨_, hnode, hreflects, fun later => ?_⟩
  have hafter := h.foldl_perform_node hnode later
  rw [← performAll_append] at hafter
  refine ⟨_, hafter, fun marks hm => Node.has_foldl_onOwn hm id later,
    fun hchecked hlater => ?_⟩
  have hreflects' := hreflects.foldl_onOwn hlater id
  -- the node is checked, so its first evaluation is among the earlier ones
  cases hes : evaluations id steps with
  | nil =>
    rw [hreflects.checked, hes] at hchecked
    cases hchecked
  | cons first rest =>
    rw [hes] at hreflects hreflects'
    exact ⟨hreflects'.loss.trans hreflects.loss.symm,
      hreflects'.anonymous.trans hreflects.anonymous.symm,
      hreflects'.notAnonymous.trans (congrArg (!·) hreflects.anonymous.symm)⟩

/-- The second evaluation contradicts the first one, and only its score is kept. -/
theorem write_once_contradicted :
    let first : Evaluation := ⟨true, .scalar 1.0, none, none, 2, .full⟩
    let second : Evaluation := ⟨false, .scalar 2.0, some (.scalar 2.0), some 3, 1, .full⟩
    let steps := [.bound 1 (.scalar 0.5), .record 1 first, .mark 1 Mark.visited, .record 1 second]
    (∀ step ∈ steps, step.Harmless) ∧
      ∃ node, (performAll ⟨[⟨0, 1, by decide⟩]⟩ steps).nodeOrUnknown 1 = .ok node ∧
        node.has Mark.anonymous = true ∧ node.has Mark.notAnonymous = false ∧
        node.loss = some first.loss ∧ node.score = some 3 ∧
        node.lowerBound = some (.scalar 0.5) := by
  intro first second steps
  have hflags : ∀ step ∈ steps, step.Harmless := by
    simp [steps, SpaceStep.Harmless, Mark.visited, Mark.checked, Mark.anonymous,
      Mark.notAnonymous]
  obtain ⟨-, -, -, hnodes⟩ := write_once ⟨[⟨0, 1, by decide⟩]⟩ hflags
  obtain ⟨node, hnode, h, -⟩ := hnodes 1 (by decide)
  exact ⟨hflags, node, hnode, h.anonymous, h.notAnonymous, h.loss, h.score, h.lowerBound⟩

end SolutionSpace
end Recoding
