import Recoding.Proofs.Search.Shared

/-!
# Scores that a search has recorded

A score that was recorded is never replaced, and every check for scores records one. So whatever
was checked is settled once and for all, with the score that a scan of all records finds.
-/

namespace Recoding

/-! ## Scores of scans -/

namespace Checker

def scoreAt (c : Checker) (levels : List Nat) : Option Rat :=
  match c.fullScan levels .score with
  | .ok (e, _) => e.score
  | .error _ => none

theorem Agrees.scoreAt {a b : Checker} (h : a.Agrees b) (levels : List Nat) :
    a.scoreAt levels = b.scoreAt levels := by
  simp only [Checker.scoreAt, h.fullScan]

theorem fullScan_score {c : Checker} {levels : List Nat} {objective : Objective} {e : Evaluation}
    {g : Grouping} {score : Rat} (h : c.fullScan levels objective = .ok (e, g))
    (hs : e.score = some score) : c.scoreAt levels = some score := by
  cases objective with
  | score =>
    rw [scoreAt, h]
    exact hs
  | loss =>
    rw [fullScan, evaluate_eq] at h
    obtain ⟨judged, -, h⟩ := bind_eq_ok.mp h
    obtain ⟨measured, -, h⟩ := bind_eq_ok.mp h
    obtain ⟨bound, -, h⟩ := bind_eq_ok.mp h
    obtain ⟨_, hmissing, h⟩ := map_eq_ok.mp h
    cases hmissing
    cases h
    cases hs

theorem evaluate_score {c : Checker} {levels : List Nat} {g judged : Grouping} {kind : ScanKind}
    {e : Evaluation} (h : c.evaluate levels g kind .score = .ok (e, judged)) :
    e.score.isSome = true := by
  rw [evaluate_eq] at h
  obtain ⟨judged, -, h⟩ := bind_eq_ok.mp h
  obtain ⟨measured, -, h⟩ := bind_eq_ok.mp h
  obtain ⟨bound, -, h⟩ := bind_eq_ok.mp h
  obtain ⟨found, hfound, h⟩ := map_eq_ok.mp h
  obtain ⟨score, -, rfl⟩ := map_eq_ok.mp hfound
  cases h
  rfl

end Checker

/-! ## Findings -/

/-- What checks find out about a transformation that has a score. -/
structure Finding where
  anonymous : Bool
  score : Rat
  levels : List Nat

/-- A node that was checked and has a score, with all that was found. -/
structure Node.Shows (n : Node) (f : Finding) : Prop where
  checked : n.has Mark.checked = true
  anonymous : n.has Mark.anonymous = f.anonymous
  score : n.score = some f.score
  levels : n.levels = f.levels

namespace Node

section
variable {n : Node} {f : Finding}

theorem exists_shows (hchecked : n.has Mark.checked = true) (hscore : n.score.isSome = true) :
    ∃ f, n.Shows f := by
  obtain ⟨score, hscore⟩ := Option.isSome_iff_exists.mp hscore
  exact ⟨⟨n.has Mark.anonymous, score, n.levels⟩, hchecked, rfl, hscore, rfl⟩

theorem Shows.record_eq (h : n.Shows f) (e : Evaluation) : n.record e = n := by
  unfold record
  dsimp only
  rw [if_pos h.checked, h.score, Option.some_or, ← h.score]

theorem Shows.mark (h : n.Shows f) {new : Nat} (hn : Mark.IsMark new)
    (ha : new ≠ Mark.anonymous) : (n.mark new).Shows f where
  checked := by rw [n.has_mark Mark.isMark_checked hn, h.checked, Bool.true_or]
  anonymous := by
    rw [n.has_mark Mark.isMark_anonymous hn, h.anonymous, beq_eq_false_iff_ne.mpr ha,
      Bool.or_false]
  score := h.score
  levels := h.levels

theorem Shows.bound (h : n.Shows f) (lowerBound : Loss) : (n.bound lowerBound).Shows f :=
  ⟨h.checked, h.anonymous, h.score, h.levels⟩

end

end Node

namespace SolutionSpace

def scoreOf (s : SolutionSpace) (id : Nat) : Option Rat := s.node? id >>= Node.score

/-- What a space holds about a transformation that was checked and has a score. -/
def Shows (s : SolutionSpace) (id : Nat) (f : Finding) : Prop := ∃ node ∈ s.node? id, node.Shows f

/-- A transformation that was checked and has a score. -/
def Settled (s : SolutionSpace) (id : Nat) : Prop := ∃ f, s.Shows id f

theorem scoreOf_put (s : SolutionSpace) (id other : Nat) (node : Node) :
    (s.put id node).scoreOf other = if id = other then node.score else s.scoreOf other := by
  unfold scoreOf
  rw [node?_put]
  split_ifs <;> rfl

section
variable {s after : SolutionSpace} {id : Nat}

theorem nodeOrUnknown_score {node : Node} (h : s.nodeOrUnknown id = .ok node) :
    node.score = s.scoreOf id := by
  unfold nodeOrUnknown at h
  unfold scoreOf
  cases hnode : s.node? id with
  | some own =>
    rw [hnode] at h
    cases h
    rfl
  | none =>
    rw [hnode] at h
    obtain ⟨levels, -, rfl⟩ := map_eq_ok.mp h
    rfl

namespace Shows

variable {v : Nat} {f g : Finding}

theorem unique (h : s.Shows v f) (k : s.Shows v g) : f = g := by
  obtain ⟨node, hnode, h⟩ := h
  obtain ⟨_, hnode', k⟩ := k
  cases Option.some.inj (hnode.symm.trans hnode')
  have hanonymous := h.anonymous.symm.trans k.anonymous
  have hscore := Option.some.inj (h.score.symm.trans k.score)
  have hlevels := h.levels.symm.trans k.levels
  cases f
  cases g
  cases hanonymous
  cases hscore
  cases hlevels
  rfl

theorem nodeOrUnknown {node : Node} (hs : s.Shows id f) (h : s.nodeOrUnknown id = .ok node) :
    node.Shows f := by
  obtain ⟨own, hown, hshows⟩ := hs
  rw [SolutionSpace.nodeOrUnknown, hown] at h
  cases h
  exact hshows

theorem put {node : Node} (hs : s.Shows v f) (h : s.Shows id f → node.Shows f) :
    (s.put id node).Shows v f := by
  unfold Shows
  rw [node?_put]
  split_ifs with he
  · subst he
    exact ⟨node, rfl, h hs⟩
  · exact hs

theorem modify {change : Node → Node} (hs : s.Shows v f)
    (hchange : ∀ n : Node, n.Shows f → (change n).Shows f)
    (h : s.modify id change = .ok after) : after.Shows v f := by
  obtain ⟨node, hnode, rfl⟩ := map_eq_ok.mp h
  exact hs.put fun hshows => hchange node (hshows.nodeOrUnknown hnode)

theorem record {e : Evaluation} (hs : s.Shows v f) (h : s.record id e = .ok after) :
    after.Shows v f := by
  obtain ⟨node, hnode, hnodes⟩ := record_nodes h
  have hput : (s.put id (node.record e)).Shows v f := hs.put fun hshows => by
    have hnode := hshows.nodeOrUnknown hnode
    rwa [hnode.record_eq e]
  unfold Shows at hput ⊢
  rwa [hnodes]

theorem scoreOf (h : s.Shows v f) : s.scoreOf v = some f.score := by
  obtain ⟨node, hnode, hshows⟩ := h
  exact Option.bind_eq_some_iff.mpr ⟨node, hnode, hshows.score⟩

theorem marked_checked (h : s.Shows v f) : s.marked v Mark.checked = true := by
  obtain ⟨node, hnode, hshows⟩ := h
  rw [marked, hnode]
  exact hshows.checked

theorem marked_anonymous (h : s.Shows v f) : s.marked v Mark.anonymous = f.anonymous := by
  obtain ⟨node, hnode, hshows⟩ := h
  rw [marked, hnode]
  exact hshows.anonymous

end Shows

theorem settled_of_node {node : Node} (hnode : node ∈ s.node? id)
    (hchecked : node.has Mark.checked = true) (hscore : node.score.isSome = true) :
    s.Settled id := by
  obtain ⟨f, hshows⟩ := Node.exists_shows hchecked hscore
  exact ⟨f, node, hnode, hshows⟩

end
end SolutionSpace

theorem Checker.settled_of_check {c after : Checker} {s learned : SolutionSpace} {id : Nat}
    {fromRecords : Bool} {e : Evaluation}
    (h : c.check s id fromRecords .score = (.ok e, after, learned)) : learned.Settled id := by
  cases hlevels : s.lattice.levelsOf id with
  | error failure =>
    rw [check_unknown hlevels] at h
    cases h
  | ok levels =>
    rw [check_eq hlevels] at h
    cases hrun : (c.prepared levels fromRecords).run levels (c.plan levels fromRecords).1
        .score with
    | error failure =>
      rw [hrun] at h
      cases h
    | ok evaluated =>
      rw [hrun] at h
      dsimp only at h
      cases hrecord : s.record id evaluated.1 with
      | error failure =>
        rw [hrecord] at h
        cases h
      | ok recorded =>
        rw [hrecord] at h
        cases h
        obtain ⟨node, -, hnodes⟩ := SolutionSpace.record_nodes hrecord
        have hscore : evaluated.1.score.isSome = true := by
          unfold Checker.run at hrun
          split at hrun
          · cases hrun
          · exact evaluate_score hrun
        have hnode : node.record evaluated.1 ∈ learned.node? id := by
          rw [hnodes, SolutionSpace.node?_put, if_pos rfl]
          exact rfl
        apply SolutionSpace.settled_of_node hnode (node.has_checked_record evaluated.1)
        rw [Node.record_score, Option.isSome_or, hscore, Bool.or_true]

/-- All that a search for scores asks about a transformation is known once it is settled. -/
theorem Progress.isSettled_iff {p : Progress} (ho : p.objective = .score) {s : SolutionSpace}
    {v : Nat} : p.isSettled s v = true ↔ s.Settled v := by
  rw [isSettled, ho, Bool.and_eq_true, SolutionSpace.has_checked]
  constructor
  · rintro ⟨hchecked, hscore⟩
    unfold SolutionSpace.marked at hchecked
    cases hnode : s.node? v with
    | none =>
      rw [hnode] at hchecked
      cases hchecked
    | some node =>
      rw [hnode] at hchecked hscore
      exact SolutionSpace.settled_of_node hnode hchecked hscore
  · rintro ⟨f, hf⟩
    obtain ⟨node, hnode, hshows⟩ := id hf
    rw [hf.marked_checked, hnode, Option.any_some, hshows.score]
    exact ⟨rfl, rfl⟩

namespace Exploration

theorem stable_shows (v : Nat) (f : Finding) : Stable fun x => x.space.Shows v f := by
  apply stable_space (P := fun s => s.Shows v f)
  · intro s after id new h hnew hmark
    refine h.modify (fun n hn => ?_) hmark
    rcases hnew with rfl | rfl | rfl
    · exact hn.mark Mark.isMark_visited (by decide)
    · exact hn.mark Mark.isMark_expanded (by decide)
    · exact hn.mark Mark.isMark_successorsPruned (by decide)
  · intro s after id lowerBound h hbound
    exact h.modify (fun n hn => hn.bound lowerBound) hbound
  · intro c s id objective h
    rcases SolutionSpace.check_space c s id false objective with hsame | ⟨e, hrecord⟩
    · rwa [hsame]
    · exact h.record hrecord

theorem settled_assureChecked {id : Nat} {x y : Exploration}
    (h : run (assureChecked id) x = (.ok (), y)) (ho : x.progress.objective = .score) :
    y.space.Settled id := by
  rcases assureChecked_ok h with ⟨hsettled, rfl⟩ | ⟨e, checker, space, hcheck, rfl⟩
  · exact (Progress.isSettled_iff ho).mp hsettled
  · rw [ho] at hcheck
    exact Checker.settled_of_check hcheck

end Exploration

/-! ## Recorded scores -/

namespace SolutionSpace

/-- Every score that a space holds is one that a scan of all records finds. -/
def Scored (s : SolutionSpace) (c : Checker) : Prop :=
  ∀ id score, s.scoreOf id = some score → c.scoreAt (s.lattice.levelsAt id) = some score

theorem scored_ofLattice (l : Lattice) (c : Checker) : (ofLattice l).Scored c := by
  intro id score h
  simp [scoreOf, node?, ofLattice] at h

theorem Scored.agrees {s : SolutionSpace} {a b : Checker} (h : s.Scored a) (hab : b.Agrees a) :
    s.Scored b := by
  intro id score hscore
  rw [hab.scoreAt]
  exact h id score hscore

theorem Scored.modify {s after : SolutionSpace} {c : Checker} {id : Nat} {f : Node → Node}
    (h : s.Scored c) (hf : ∀ n, (f n).score = n.score) (hs : s.modify id f = .ok after) :
    after.Scored c := by
  obtain ⟨node, hnode, rfl⟩ := map_eq_ok.mp hs
  intro other score hscore
  rw [show ({ s with nodes := s.nodes.insert id (f node) } : SolutionSpace) = s.put id (f node)
    from rfl, scoreOf_put, hf, nodeOrUnknown_score hnode] at hscore
  split_ifs at hscore with he
  · exact h other score (he ▸ hscore)
  · exact h other score hscore

theorem Scored.check {s : SolutionSpace} {c : Checker} (h : s.Scored c) (hc : c.Faithful)
    (hl : c.dataset.Covers s.lattice) (id : Nat) (fromRecords : Bool) (objective : Objective) :
    (c.check s id fromRecords objective).2.2.Scored c := by
  cases hlevels : s.lattice.levelsOf id with
  | error failure =>
    rw [Checker.check_unknown hlevels]
    exact h
  | ok levels =>
    cases hscan : c.fullScan levels objective with
    | error failure =>
      rw [hc.check_error hl hlevels hscan]
      exact h
    | ok evaluated =>
      obtain ⟨e, g⟩ := evaluated
      obtain ⟨after, learned, hcheck, -, -, hrecord⟩ := hc.check_ok hl hlevels hscan fromRecords
      rw [hcheck]
      obtain ⟨node, hnode, hnodes⟩ := record_nodes hrecord
      intro other score hscore
      have hput : (s.put id (node.record e)).scoreOf other = some score := by
        unfold scoreOf at hscore ⊢
        rwa [← hnodes]
      rw [scoreOf_put, Node.record_score, nodeOrUnknown_score hnode] at hput
      rw [(record_frame hrecord).1]
      split_ifs at hput with he
      · subst he
        rcases Option.or_eq_some_iff.mp hput with hold | ⟨-, hnew⟩
        · exact h id score hold
        · obtain ⟨-, rfl⟩ := Lattice.levelsOf_ok hlevels
          exact Checker.fullScan_score hscan hnew
      · exact h other score hput

end SolutionSpace

namespace Exploration

/-- A sane state whose scores are those of scans of all records, as long as it fits. -/
structure Rated (c : Checker) (l : Lattice) (first : Option Nat) (x : Exploration) : Prop where
  sane : Sane c l first x
  scored : x.Fits → x.space.Scored c

section
variable {c : Checker} {l : Lattice} {first : Option Nat} (hc : c.Serves l)
include hc

theorem stable_rated : Stable (Rated c l first) := by
  have hsane : Stable (Sane c l first) := stable_sane hc
  have hmodify : ∀ (id : Nat) (f : Node → Node), (∀ n, (f n).score = n.score) →
      Keeps (Sane c l first) (onSpace (·.modify id f)) →
      Keeps (Rated c l first) (onSpace (·.modify id f)) := by
    intro id f hf hkeeps x h
    have hscored : Keeps (fun x => x.Fits → x.space.Scored c) (onSpace (·.modify id f)) :=
      keeps_onSpace fun y space hy hspace hfits => (hy hfits).modify hf hspace
    exact ⟨hkeeps x h.sane, hscored x h.scored⟩
  exact {
    visited := fun id => hmodify id _ (fun _ => rfl) (hsane.visited id)
    mark := fun id new hn => hmodify id _ (fun _ => rfl) (hsane.mark id new hn)
    bound := fun id lowerBound => hmodify id _ (fun _ => rfl) (hsane.bound id lowerBound)
    assureChecked := by
      intro id
      refine keeps_check (fun x h => ⟨h.sane.check hc id x.progress.objective, ?_⟩)
        fun _ _ h => ⟨h.sane.withProgress rfl, h.scored⟩
      intro hfits
      have hagrees := h.sane.precedes.agrees
      have hx : x.Fits := fits_of_extends
        (x.checker.agrees_check x.space id false x.progress.objective).2 hfits
      have hserves := h.sane.serves hc hx
      exact (((h.scored hx).agrees hagrees).check hserves.faithful hserves.covers id false
        x.progress.objective).agrees hagrees.symm
    count := fun f x h => ⟨hsane.count f x h.sane, h.scored⟩
    track := fun id x h => ⟨hsane.track id x h.sane, h.scored⟩
    source := fun x source h => ⟨h.sane.withSource source, h.scored⟩
    finish := fun proved x h => ⟨hsane.finish proved x h.sane, h.scored⟩ }

end
end Exploration

open Exploration

theorem Search.rated_begun {c : Checker} {space : SolutionSpace} (ht : space.Truthful c)
    (hs : space.Scored c) (s : Search) :
    Rated c space.lattice s.progress.optimum (s.begun c space) := by
  refine ⟨s.sane_begun ht, fun _ => ?_⟩
  unfold begun
  cases s.plan with
  | bestFirst => exact hs
  | privateWalk epsilon perStep steps => exact hs

theorem LeftBehind.scored {c : Checker} {l : Lattice} {checker : Checker} {space : SolutionSpace}
    (hc : c.Serves l) (h : LeftBehind c l checker space)
    (hfits : checker.history.dictionary.size < 2 ^ 32) : space.Scored c := by
  induction h with
  | new => exact SolutionSpace.scored_ofLattice l c
  | @traversed checker space before s clock ih =>
    have hbegun := fits_of_ended hfits
    obtain ⟨hprecedes, hlattice, htruthful⟩ := before.inherits hc hbegun
    have hagrees := hprecedes.agrees
    have hrated := s.keeps_ended (stable_rated (hlattice ▸ hc.precedes hprecedes hbegun)) clock
      (s.rated_begun (htruthful.agrees hagrees) ((ih hbegun).agrees hagrees))
    exact (hrated.scored hfits).agrees hagrees.symm

end Recoding
