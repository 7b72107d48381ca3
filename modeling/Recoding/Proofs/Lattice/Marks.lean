import Recoding.Lattice.Space
import Recoding.Proofs.Lattice.Coordinates
import Recoding.Proofs.Outcome

/-!
# Marks and losses in a solution space

What a solution space holds about its transformations is read off here as one truth value per
mark and one optional loss. Setting a mark and recording a bound leave the verdicts and losses
alone; recording an evaluation sets those of one transformation, once.
-/

namespace Recoding

namespace Node

theorem has_two_pow (n : Node) (i : Nat) : n.has (2 ^ i) = n.marks.testBit i := by
  unfold has
  rw [Bool.eq_iff_iff, beq_iff_eq]
  constructor
  · intro h
    have hbit := congrArg (Nat.testBit · i) h
    simpa [Nat.testBit_two_pow_self] using hbit
  · intro h
    refine Nat.eq_of_testBit_eq fun j => ?_
    rw [Nat.testBit_and, Nat.testBit_two_pow]
    by_cases hij : i = j
    · subst hij
      simp [h]
    · simp [hij]

end Node

namespace Mark

/-- The marks are the first six powers of two. -/
def IsMark (mark : Nat) : Prop := ∃ i, mark = 2 ^ i

theorem isMark_checked : IsMark checked := ⟨0, rfl⟩
theorem isMark_anonymous : IsMark anonymous := ⟨1, rfl⟩
theorem isMark_notAnonymous : IsMark notAnonymous := ⟨2, rfl⟩
theorem isMark_visited : IsMark visited := ⟨3, rfl⟩
theorem isMark_successorsPruned : IsMark successorsPruned := ⟨4, rfl⟩
theorem isMark_expanded : IsMark expanded := ⟨5, rfl⟩

end Mark

open Mark in
theorem Node.has_mark (n : Node) {mark new : Nat} (hm : IsMark mark) (hn : IsMark new) :
    (n.mark new).has mark = (n.has mark || new == mark) := by
  obtain ⟨i, rfl⟩ := hm
  obtain ⟨j, rfl⟩ := hn
  rw [has_two_pow, has_two_pow, Node.mark, Nat.testBit_or, Nat.testBit_two_pow]
  congr 1
  rw [Bool.eq_iff_iff, decide_eq_true_eq, beq_iff_eq]
  exact (Nat.pow_right_injective (le_refl 2)).eq_iff.symm

namespace SolutionSpace

def marked (s : SolutionSpace) (id mark : Nat) : Bool := (s.node? id).any (·.has mark)

def lossOf (s : SolutionSpace) (id : Nat) : Option Loss := s.node? id >>= Node.loss

def Indexed (s : SolutionSpace) : Prop :=
  ∀ id node, s.node? id = some node → s.lattice.levelsOf id = .ok node.levels

theorem indexed_ofLattice (l : Lattice) : (ofLattice l).Indexed := by
  intro id node h
  simp [node?, ofLattice] at h

theorem marked_ofLattice (l : Lattice) (id mark : Nat) : (ofLattice l).marked id mark = false := by
  simp [marked, node?, ofLattice]

theorem has_eq (s : SolutionSpace) (id mark : Nat) :
    s.has id mark = (s.marked id mark || (s.predictable && s.predicts id mark)) := rfl

theorem predicts_eq_false (s : SolutionSpace) (id : Nat) {mark : Nat}
    (ha : mark ≠ Mark.anonymous) (hn : mark ≠ Mark.notAnonymous) :
    s.predicts id mark = false := by
  unfold predicts
  cases s.lattice.levelsOf id with
  | error failure => rfl
  | ok levels =>
    dsimp only
    rw [if_neg ha, if_neg hn]

theorem has_checked (s : SolutionSpace) (id : Nat) :
    s.has id Mark.checked = s.marked id Mark.checked := by
  rw [has_eq, predicts_eq_false s id (by decide) (by decide), Bool.and_false, Bool.or_false]

theorem has_visited (s : SolutionSpace) (id : Nat) :
    s.has id Mark.visited = s.marked id Mark.visited := by
  rw [has_eq, predicts_eq_false s id (by decide) (by decide), Bool.and_false, Bool.or_false]

def put (s : SolutionSpace) (id : Nat) (node : Node) : SolutionSpace :=
  { s with nodes := s.nodes.insert id node }

theorem node?_put (s : SolutionSpace) (id other : Nat) (node : Node) :
    (s.put id node).node? other = if id = other then some node else s.node? other := by
  unfold node? put
  rw [Std.TreeMap.getElem?_insert]
  simp only [compare_eq_iff_eq]

theorem marked_put (s : SolutionSpace) (id other mark : Nat) (node : Node) :
    (s.put id node).marked other mark =
      if id = other then node.has mark else s.marked other mark := by
  unfold marked
  rw [node?_put]
  split_ifs <;> rfl

theorem lossOf_put (s : SolutionSpace) (id other : Nat) (node : Node) :
    (s.put id node).lossOf other = if id = other then node.loss else s.lossOf other := by
  unfold lossOf
  rw [node?_put]
  split_ifs <;> rfl

theorem Indexed.put {s : SolutionSpace} (hs : s.Indexed) {id : Nat} {node : Node}
    (h : s.lattice.levelsOf id = .ok node.levels) : (s.put id node).Indexed := by
  intro other n hn
  rw [node?_put] at hn
  split_ifs at hn with he
  · cases hn
    rw [← he]
    exact h
  · exact hs other n hn

section
variable {s : SolutionSpace} {id : Nat} {levels : List Nat}

/-- Whether or not a node exists, the marks and the loss of its content are those held. -/
theorem nodeOrUnknown_ok (hs : s.Indexed) (hl : s.lattice.levelsOf id = .ok levels) :
    ∃ node, s.nodeOrUnknown id = .ok node ∧ node.levels = levels ∧
      node.loss = s.lossOf id ∧ ∀ mark, Mark.IsMark mark → node.has mark = s.marked id mark := by
  unfold nodeOrUnknown lossOf marked
  cases hnode : s.node? id with
  | some node =>
    have hlevels := hs id node hnode
    rw [hl] at hlevels
    exact ⟨node, rfl, (Except.ok.inj hlevels).symm, rfl, fun _ _ => rfl⟩
  | none =>
    refine ⟨.unknown id levels, by rw [hl]; rfl, rfl, rfl, ?_⟩
    rintro mark ⟨i, rfl⟩
    rw [Node.has_two_pow]
    exact Nat.zero_testBit i

end

/-- A space that holds the same verdicts and losses as another one, and in which the given
transformations have been visited besides. -/
structure Follows (s after : SolutionSpace) (visited : List Nat) : Prop where
  lattice : after.lattice = s.lattice
  predictable : after.predictable = s.predictable
  anonymousRoots : after.anonymousRoots = s.anonymousRoots
  violatingRoots : after.violatingRoots = s.violatingRoots
  indexed : after.Indexed
  loss : ∀ id, after.lossOf id = s.lossOf id
  checked : ∀ id, after.marked id Mark.checked = s.marked id Mark.checked
  anonymous : ∀ id, after.marked id Mark.anonymous = s.marked id Mark.anonymous
  notAnonymous : ∀ id, after.marked id Mark.notAnonymous = s.marked id Mark.notAnonymous
  visited : ∀ id, after.marked id Mark.visited = true ↔
    s.marked id Mark.visited = true ∨ id ∈ visited

theorem Follows.refl {s : SolutionSpace} (hs : s.Indexed) : s.Follows s [] :=
  ⟨rfl, rfl, rfl, rfl, hs, fun _ => rfl, fun _ => rfl, fun _ => rfl, fun _ => rfl, by simp⟩

theorem Follows.trans {s t u : SolutionSpace} {xs ys : List Nat} (h : s.Follows t xs)
    (k : t.Follows u ys) : s.Follows u (xs ++ ys) where
  lattice := k.lattice.trans h.lattice
  predictable := k.predictable.trans h.predictable
  anonymousRoots := k.anonymousRoots.trans h.anonymousRoots
  violatingRoots := k.violatingRoots.trans h.violatingRoots
  indexed := k.indexed
  loss id := (k.loss id).trans (h.loss id)
  checked id := (k.checked id).trans (h.checked id)
  anonymous id := (k.anonymous id).trans (h.anonymous id)
  notAnonymous id := (k.notAnonymous id).trans (h.notAnonymous id)
  visited id := by rw [k.visited, h.visited, List.mem_append, or_assoc]

section
variable {s : SolutionSpace} (hs : s.Indexed) {id : Nat} {levels : List Nat}
  (hl : s.lattice.levelsOf id = .ok levels)
include hs hl

/-- A change that keeps verdicts and the loss of a node can be made, and is followed. -/
theorem modify_ok {f : Node → Node} {visited : List Nat} (hlevels : ∀ n, (f n).levels = n.levels)
    (hloss : ∀ n, (f n).loss = n.loss)
    (hverdicts : ∀ n, ∀ mark ∈ [Mark.checked, Mark.anonymous, Mark.notAnonymous],
      (f n).has mark = n.has mark)
    (hvisited : ∀ n, (f n).has Mark.visited = true ↔ n.has Mark.visited = true ∨ id ∈ visited)
    (honly : ∀ other ∈ visited, other = id) :
    ∃ after, s.modify id f = .ok after ∧ s.Follows after visited := by
  obtain ⟨node, hnode, hown, hnodeLoss, hmarks⟩ := nodeOrUnknown_ok hs hl
  have hkept : ∀ mark, Mark.IsMark mark → (f node).has mark = node.has mark → ∀ other,
      (s.put id (f node)).marked other mark = s.marked other mark := by
    intro mark hm hsame other
    rw [marked_put]
    split_ifs with he
    · rw [hsame, hmarks mark hm, he]
    · rfl
  refine ⟨s.put id (f node), by rw [modify, hnode]; rfl, rfl, rfl, rfl, rfl, ?_, ?_, ?_, ?_, ?_,
    ?_⟩
  · exact hs.put (by rw [hlevels, hown]; exact hl)
  · intro other
    rw [lossOf_put]
    split_ifs with he
    · rw [hloss, hnodeLoss, he]
    · rfl
  · exact hkept _ Mark.isMark_checked (hverdicts node _ (by simp))
  · exact hkept _ Mark.isMark_anonymous (hverdicts node _ (by simp))
  · exact hkept _ Mark.isMark_notAnonymous (hverdicts node _ (by simp))
  · intro other
    rw [marked_put]
    split_ifs with he
    · rw [hvisited, hmarks _ Mark.isMark_visited, he]
    · constructor
      · exact Or.inl
      · rintro (h | h)
        · exact h
        · exact absurd (honly other h).symm he

theorem mark_visited_ok : ∃ after, s.mark id Mark.visited = .ok after ∧
    s.Follows after [id] :=
  modify_ok hs hl (fun _ => rfl) (fun _ => rfl)
    (by
      intro n mark hm
      simp only [List.mem_cons, List.not_mem_nil, or_false] at hm
      rcases hm with rfl | rfl | rfl
      · rw [n.has_mark Mark.isMark_checked Mark.isMark_visited]
        exact Bool.or_false _
      · rw [n.has_mark Mark.isMark_anonymous Mark.isMark_visited]
        exact Bool.or_false _
      · rw [n.has_mark Mark.isMark_notAnonymous Mark.isMark_visited]
        exact Bool.or_false _)
    (fun n => by simp [n.has_mark Mark.isMark_visited Mark.isMark_visited]) (by simp)

theorem mark_ok {new : Nat} (hn : new = Mark.expanded ∨ new = Mark.successorsPruned) :
    ∃ after, s.mark id new = .ok after ∧ s.Follows after [] := by
  have hnew : Mark.IsMark new := by
    rcases hn with rfl | rfl
    · exact Mark.isMark_expanded
    · exact Mark.isMark_successorsPruned
  have hother : ∀ mark ∈ [Mark.checked, Mark.anonymous, Mark.notAnonymous, Mark.visited],
      (new == mark) = false := by
    rcases hn with rfl | rfl <;> decide
  refine modify_ok hs hl (fun _ => rfl) (fun _ => rfl) ?_ (fun n => ?_) (by simp)
  · intro n mark hm
    simp only [List.mem_cons, List.not_mem_nil, or_false] at hm
    rcases hm with rfl | rfl | rfl
    · rw [n.has_mark Mark.isMark_checked hnew, hother _ (by simp), Bool.or_false]
    · rw [n.has_mark Mark.isMark_anonymous hnew, hother _ (by simp), Bool.or_false]
    · rw [n.has_mark Mark.isMark_notAnonymous hnew, hother _ (by simp), Bool.or_false]
  · rw [n.has_mark Mark.isMark_visited hnew, hother _ (by simp), Bool.or_false]
    simp

theorem bound_ok (lowerBound : Loss) : ∃ after, s.bound id lowerBound = .ok after ∧
    s.Follows after [] :=
  modify_ok hs hl (fun _ => rfl) (fun _ => rfl) (fun _ _ _ => rfl) (fun n => by simp [Node.bound,
    Node.has]) (by simp)

end

/-! ## Recording evaluations -/

theorem record_has (n : Node) (e : Evaluation) (h : n.has Mark.checked = false) {mark : Nat}
    (hm : Mark.IsMark mark) : (n.record e).has mark = (n.has mark || Mark.checked == mark ||
      (if e.anonymous then Mark.anonymous else Mark.notAnonymous) == mark) := by
  have hverdict : Mark.IsMark (if e.anonymous then Mark.anonymous else Mark.notAnonymous) := by
    split_ifs
    · exact Mark.isMark_anonymous
    · exact Mark.isMark_notAnonymous
  rw [← n.has_mark hm Mark.isMark_checked, ← (n.mark Mark.checked).has_mark hm hverdict]
  simp only [Node.record, h, Bool.false_eq_true, if_false]
  rfl

/-- A space in which a transformation that was not checked before has been evaluated. -/
structure Gains (s after : SolutionSpace) (id : Nat) (levels : List Nat) (e : Evaluation) :
    Prop where
  lattice : after.lattice = s.lattice
  predictable : after.predictable = s.predictable
  anonymousRoots : after.anonymousRoots = s.anonymousRoots ∨ e.anonymous = true ∧
    after.anonymousRoots = insertRoot levelsLe s.anonymousRoots levels
  violatingRoots : after.violatingRoots = s.violatingRoots ∨ e.anonymous = false ∧
    after.violatingRoots = insertRoot (fun a b => levelsLe b a) s.violatingRoots levels
  indexed : after.Indexed
  loss : ∀ other, after.lossOf other = if id = other then some e.loss else s.lossOf other
  checked : ∀ other, after.marked other Mark.checked =
    (s.marked other Mark.checked || id == other)
  anonymous : ∀ other, after.marked other Mark.anonymous =
    (s.marked other Mark.anonymous || (id == other && e.anonymous))
  notAnonymous : ∀ other, after.marked other Mark.notAnonymous =
    (s.marked other Mark.notAnonymous || (id == other && !e.anonymous))
  visited : ∀ other, after.marked other Mark.visited = s.marked other Mark.visited

section
variable {s : SolutionSpace} (hs : s.Indexed) {id : Nat} {levels : List Nat}
  (hl : s.lattice.levelsOf id = .ok levels)
include hs hl

/-- A second evaluation changes no verdict and no loss. -/
theorem record_again (h : s.marked id Mark.checked = true) (e : Evaluation) :
    ∃ after, s.record id e = .ok after ∧ s.Follows after [] := by
  obtain ⟨node, hnode, hown, hloss, hmarks⟩ := nodeOrUnknown_ok hs hl
  have hchecked : node.has Mark.checked = true := (hmarks _ Mark.isMark_checked).trans h
  have hrecord : node.record e = { node with score := node.score.or e.score } := by
    simp only [Node.record, hchecked, if_true]
  have hkept : ∀ mark, Mark.IsMark mark → ∀ other,
      (s.put id (node.record e)).marked other mark = s.marked other mark := by
    intro mark hm other
    rw [marked_put, hrecord]
    split_ifs with he
    · rw [← he]
      exact hmarks mark hm
    · rfl
  refine ⟨s.put id (node.record e), ?_, rfl, rfl, rfl, rfl, ?_, ?_, ?_, ?_, ?_, ?_⟩
  · rw [record, hnode, ok_bind, hchecked, Bool.not_true, Bool.and_false]
    rfl
  · exact hs.put (by rw [hrecord, hl, hown])
  · intro other
    rw [lossOf_put, hrecord]
    split_ifs with he
    · rw [← he]
      exact hloss
    · rfl
  · exact hkept _ Mark.isMark_checked
  · exact hkept _ Mark.isMark_anonymous
  · exact hkept _ Mark.isMark_notAnonymous
  · intro other
    rw [hkept _ Mark.isMark_visited]
    simp

/-- A first evaluation sets the verdict and the loss, and serves predictions. -/
theorem record_first (h : s.marked id Mark.checked = false) (e : Evaluation) :
    ∃ after, s.record id e = .ok after ∧ s.Gains after id levels e := by
  obtain ⟨node, hnode, hown, hloss, hmarks⟩ := nodeOrUnknown_ok hs hl
  have hchecked : node.has Mark.checked = false := (hmarks _ Mark.isMark_checked).trans h
  have hlevels : (node.record e).levels = levels := by
    simp only [Node.record, hchecked, Bool.false_eq_true, if_false, hown]
  have hgained : ∀ mark, Mark.IsMark mark → ∀ other,
      (s.put id (node.record e)).marked other mark = (s.marked other mark || (id == other &&
        (Mark.checked == mark ||
          (if e.anonymous then Mark.anonymous else Mark.notAnonymous) == mark))) := by
    intro mark hm other
    rw [marked_put]
    by_cases he : id = other
    · rw [if_pos he, record_has node e hchecked hm, hmarks mark hm, he, beq_self_eq_true,
        Bool.true_and, Bool.or_assoc]
    · rw [if_neg he, beq_false_of_ne he, Bool.false_and, Bool.or_false]
  have hput : s.Gains (s.put id (node.record e)) id levels e := by
    refine ⟨rfl, rfl, Or.inl rfl, Or.inl rfl, hs.put (hlevels ▸ hl), ?_, ?_, ?_, ?_, ?_⟩
    · intro other
      rw [lossOf_put]
      simp only [Node.record, hchecked, Bool.false_eq_true, if_false]
    · intro other
      rw [hgained _ Mark.isMark_checked]
      simp
    · intro other
      rw [hgained _ Mark.isMark_anonymous]
      cases e.anonymous <;> rfl
    · intro other
      rw [hgained _ Mark.isMark_notAnonymous]
      cases e.anonymous <;> rfl
    · intro other
      rw [hgained _ Mark.isMark_visited]
      cases e.anonymous <;> simp [Mark.checked, Mark.visited, Mark.anonymous, Mark.notAnonymous]
  have hrecord : s.record id e = .ok (if s.predictable && !node.has Mark.checked then
      (s.put id (node.record e)).addRoot node.levels e.anonymous
      else s.put id (node.record e)) := by
    rw [record, hnode]
    rfl
  refine ⟨_, hrecord, ?_⟩
  split_ifs
  · rw [hown]
    cases hverdict : e.anonymous with
    | true => exact { hput with anonymousRoots := Or.inr ⟨hverdict, rfl⟩ }
    | false => exact { hput with violatingRoots := Or.inr ⟨hverdict, rfl⟩ }
  · exact hput

end

end SolutionSpace
end Recoding
