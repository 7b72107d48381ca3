import Recoding.Proofs.Lattice.Marks

/-!
# Nodes of a solution space

Every change of a solution space writes one node, which is that of a transformation. What it sets
is never taken back: marks are only added, and which ones are told here for each kind of change.
-/

namespace Recoding

namespace Node

theorem has_iff {n : Node} {marks : Nat} :
    n.has marks = true ↔ ∀ i, marks.testBit i = true → n.marks.testBit i = true := by
  unfold has
  rw [beq_iff_eq]
  constructor
  · intro h i hi
    rw [← h, Nat.testBit_and, Bool.and_eq_true] at hi
    exact hi.1
  · intro h
    refine Nat.eq_of_testBit_eq fun i => ?_
    rw [Nat.testBit_and]
    cases hi : marks.testBit i with
    | false => exact Bool.and_false _
    | true => rw [h i hi, Bool.true_and]

/-- More marks hold whatever fewer marks hold. -/
theorem has_of_or {n other : Node} {more marks : Nat} (h : other.marks = n.marks ||| more)
    (hn : n.has marks = true) : other.has marks = true := by
  refine has_iff.mpr fun i hi => ?_
  rw [h, Nat.testBit_or, has_iff.mp hn i hi, Bool.true_or]

theorem record_score (n : Node) (e : Evaluation) : (n.record e).score = n.score.or e.score := by
  unfold record
  dsimp only
  split_ifs <;> rfl

theorem record_levels (n : Node) (e : Evaluation) : (n.record e).levels = n.levels := by
  unfold record
  dsimp only
  split_ifs <;> rfl

theorem has_checked_record (n : Node) (e : Evaluation) :
    (n.record e).has Mark.checked = true := by
  cases h : n.has Mark.checked with
  | true =>
    rw [record, if_pos h]
    exact h
  | false =>
    rw [SolutionSpace.record_has n e h Mark.isMark_checked]
    simp

theorem has_record {n : Node} {marks : Nat} (e : Evaluation) (hn : n.has marks = true) :
    (n.record e).has marks = true := by
  unfold record
  dsimp only
  split_ifs
  · exact hn
  · exact has_of_or (Nat.or_assoc _ _ _) hn
  · exact has_of_or (Nat.or_assoc _ _ _) hn

end Node

namespace SolutionSpace

theorem record_nodes {s after : SolutionSpace} {id : Nat} {e : Evaluation}
    (h : s.record id e = .ok after) :
    ∃ node, s.nodeOrUnknown id = .ok node ∧
      ∀ other, after.node? other = (s.put id (node.record e)).node? other := by
  obtain ⟨node, hnode, h⟩ := bind_eq_ok.mp h
  refine ⟨node, hnode, fun other => ?_⟩
  rw [← Except.ok.inj h]
  split_ifs
  · unfold addRoot
    split_ifs <;> rfl
  · rfl

theorem record_frame {s after : SolutionSpace} {id : Nat} {e : Evaluation}
    (h : s.record id e = .ok after) :
    after.lattice = s.lattice ∧ after.predictable = s.predictable := by
  obtain ⟨node, -, h⟩ := bind_eq_ok.mp h
  rw [← Except.ok.inj h]
  split_ifs
  · unfold addRoot
    split_ifs <;> exact ⟨rfl, rfl⟩
  · exact ⟨rfl, rfl⟩

theorem modify_frame {s after : SolutionSpace} {id : Nat} {f : Node → Node}
    (h : s.modify id f = .ok after) :
    after.lattice = s.lattice ∧ after.predictable = s.predictable := by
  obtain ⟨node, -, rfl⟩ := map_eq_ok.mp h
  exact ⟨rfl, rfl⟩

def Housed (s : SolutionSpace) (l : Lattice) : Prop :=
  s.lattice = l ∧ ∀ id node, s.node? id = some node → id < l.size

theorem housed_ofLattice (l : Lattice) : (ofLattice l).Housed l :=
  ⟨rfl, fun id node h => (Lattice.levelsOf_ok (indexed_ofLattice l id node h)).1⟩

section
variable {s : SolutionSpace} {l : Lattice} (h : s.Housed l)
include h

theorem Housed.node?_eq_none {id : Nat} (hid : l.size ≤ id) : s.node? id = none := by
  cases hnode : s.node? id with
  | none => rfl
  | some node => exact absurd (h.2 id node hnode) (not_lt.mpr hid)

theorem Housed.lt_size {id : Nat} {node : Node} (hnode : s.nodeOrUnknown id = .ok node) :
    id < l.size := by
  unfold nodeOrUnknown at hnode
  cases hown : s.node? id with
  | some own => exact h.2 id own hown
  | none =>
    rw [hown] at hnode
    obtain ⟨levels, hlevels, -⟩ := map_eq_ok.mp hnode
    rw [← h.1]
    exact (Lattice.levelsOf_ok hlevels).1

theorem Housed.put {id : Nat} {node : Node} (hid : id < l.size) : (s.put id node).Housed l := by
  refine ⟨h.1, fun other n hn => ?_⟩
  rw [node?_put] at hn
  split_ifs at hn with he
  · rwa [← he]
  · exact h.2 other n hn

theorem Housed.modify {after : SolutionSpace} {id : Nat} {f : Node → Node}
    (hafter : s.modify id f = .ok after) : after.Housed l := by
  obtain ⟨node, hnode, rfl⟩ := map_eq_ok.mp hafter
  exact h.put (h.lt_size hnode)

theorem Housed.record {after : SolutionSpace} {id : Nat} {e : Evaluation}
    (hafter : s.record id e = .ok after) : after.Housed l := by
  obtain ⟨node, hnode, hrecord⟩ := bind_eq_ok.mp hafter
  have hput : (s.put id (node.record e)).Housed l := h.put (h.lt_size hnode)
  rw [← Except.ok.inj hrecord]
  split_ifs
  · unfold addRoot
    split_ifs <;> exact hput
  · exact hput

end

/-! ## Marks that are set -/

/-- A space in which the given marks of the given transformations have been set besides. -/
structure Acquires (s after : SolutionSpace) (acquired : List (Nat × Nat)) : Prop where
  lattice : after.lattice = s.lattice
  marked : ∀ id mark, Mark.IsMark mark → (after.marked id mark = true ↔
    s.marked id mark = true ∨ (id, mark) ∈ acquired)

theorem Acquires.refl (s : SolutionSpace) : s.Acquires s [] := ⟨rfl, by simp⟩

theorem Acquires.trans {s t u : SolutionSpace} {xs ys : List (Nat × Nat)} (h : s.Acquires t xs)
    (k : t.Acquires u ys) : s.Acquires u (xs ++ ys) where
  lattice := k.lattice.trans h.lattice
  marked id mark hm := by rw [k.marked id mark hm, h.marked id mark hm, List.mem_append, or_assoc]

section
variable {s after : SolutionSpace} {id : Nat}

theorem nodeOrUnknown_has {node : Node} (h : s.nodeOrUnknown id = .ok node) {mark : Nat}
    (hm : Mark.IsMark mark) : node.has mark = s.marked id mark := by
  unfold nodeOrUnknown at h
  unfold marked
  cases hnode : s.node? id with
  | some own =>
    rw [hnode] at h
    cases h
    rfl
  | none =>
    rw [hnode] at h
    obtain ⟨levels, -, rfl⟩ := map_eq_ok.mp h
    obtain ⟨i, rfl⟩ := hm
    rw [Node.has_two_pow]
    exact Nat.zero_testBit i

theorem acquires_of_node {node changed : Node} (hnode : s.nodeOrUnknown id = .ok node)
    (hlattice : after.lattice = s.lattice)
    (hnodes : ∀ other, after.node? other = (s.put id changed).node? other) (marks : List Nat)
    (hmarks : ∀ mark, Mark.IsMark mark →
      (changed.has mark = true ↔ node.has mark = true ∨ mark ∈ marks)) :
    s.Acquires after (marks.map (id, ·)) := by
  refine ⟨hlattice, fun other mark hm => ?_⟩
  have hmarked : after.marked other mark = (s.put id changed).marked other mark := by
    unfold marked
    rw [hnodes]
  rw [hmarked, marked_put]
  split_ifs with he
  · subst he
    rw [hmarks mark hm, nodeOrUnknown_has hnode hm]
    simp
  · simp [he]

theorem acquires_modify {f : Node → Node} (h : s.modify id f = .ok after) (marks : List Nat)
    (hmarks : ∀ node mark, Mark.IsMark mark →
      ((f node).has mark = true ↔ node.has mark = true ∨ mark ∈ marks)) :
    s.Acquires after (marks.map (id, ·)) := by
  obtain ⟨node, hnode, hafter⟩ := map_eq_ok.mp h
  refine acquires_of_node hnode (modify_frame h).1 (fun other => ?_) marks (hmarks node)
  rw [← hafter]
  rfl

theorem acquires_mark {new : Nat} (hn : Mark.IsMark new) (h : s.mark id new = .ok after) :
    s.Acquires after [(id, new)] := by
  refine acquires_modify h [new] fun node mark hm => ?_
  rw [node.has_mark hm hn, Bool.or_eq_true, beq_iff_eq, List.mem_singleton, @eq_comm _ mark]

theorem acquires_bound {lowerBound : Loss} (h : s.bound id lowerBound = .ok after) :
    s.Acquires after [] :=
  acquires_modify h [] fun _ _ _ => (or_iff_left List.not_mem_nil).symm

/-- Recording an evaluation sets that a transformation is checked, and perhaps its verdict. -/
theorem acquires_record {e : Evaluation} (h : s.record id e = .ok after) :
    ∃ marks : List Nat, s.Acquires after (marks.map (id, ·)) ∧ Mark.checked ∈ marks ∧
      ∀ mark ∈ marks, mark ∈ [Mark.checked, Mark.anonymous, Mark.notAnonymous] := by
  obtain ⟨node, hnode, hnodes⟩ := record_nodes h
  have hlattice := (record_frame h).1
  cases hchecked : node.has Mark.checked with
  | true =>
    refine ⟨[Mark.checked], acquires_of_node hnode hlattice hnodes _ fun mark hm => ?_,
      List.mem_singleton_self _, by simp⟩
    have hsame : (node.record e).has mark = node.has mark := by
      simp only [Node.record, hchecked, if_true]
      rfl
    rw [hsame, List.mem_singleton]
    exact ⟨Or.inl, fun h => h.elim (fun h => h) fun he => he ▸ hchecked⟩
  | false =>
    refine ⟨[Mark.checked, if e.anonymous then Mark.anonymous else Mark.notAnonymous],
      acquires_of_node hnode hlattice hnodes _ fun mark hm => ?_, List.mem_cons_self, ?_⟩
    · rw [record_has node e hchecked hm, Bool.or_eq_true, Bool.or_eq_true, beq_iff_eq, beq_iff_eq,
        List.mem_pair, or_assoc, @eq_comm _ mark, @eq_comm _ mark]
    · cases e.anonymous <;> simp

end

end SolutionSpace
end Recoding
