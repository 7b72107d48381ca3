import Recoding.Proofs.Search.Achieved

/-!
# The frontier of a best-first search

A best-first search comes to the transformations that are open in the space it starts from:
those it can reach over transformations that no earlier search has visited. Between two visits
everything open is visited, queued, or cannot be preferred to the optimum.

What is preferred and in which order transformations are visited are parameters here.
-/

namespace Recoding

namespace Lattice

/-- One transformation has a smaller value than another one, or the same value and at most the
same level. -/
def Ranked (l : Lattice) (value : List Nat → Float) (u v : Nat) : Prop :=
  Binary64.orderKey (value (l.levelsAt u)) < Binary64.orderKey (value (l.levelsAt v)) ∨
    Binary64.orderKey (value (l.levelsAt u)) = Binary64.orderKey (value (l.levelsAt v)) ∧
      levelSum (l.levelsAt u) ≤ levelSum (l.levelsAt v)

end Lattice

namespace SolutionSpace

/-- A transformation that a best-first search passes over with everything above it: it has not
been checked, but is known to be anonymous, and the metric is monotone. -/
def Foreclosed (s : SolutionSpace) (monotone : Bool) (id : Nat) : Prop :=
  monotone = true ∧ s.marked id Mark.checked = false ∧ s.has id Mark.anonymous = true

/-- The transformations that a best-first search can come to: the bottom, and step by step
whatever no earlier search has visited. -/
inductive Open (s : SolutionSpace) (monotone : Bool) : Nat → Prop
  | bottom (free : ¬s.Foreclosed monotone s.lattice.bottom) : Open s monotone s.lattice.bottom
  | step {id next : Nat} (below : Open s monotone id) (up : s.lattice.Step id next)
      (fresh : s.marked next Mark.visited = false) (free : ¬s.Foreclosed monotone next) :
      Open s monotone next

theorem Open.free {s : SolutionSpace} {monotone : Bool} {id : Nat} (h : s.Open monotone id) :
    ¬s.Foreclosed monotone id := by
  cases h with
  | bottom free => exact free
  | step below up fresh free => exact free

/-- The transformations that a best-first search queues. -/
def Candidate (s : SolutionSpace) (monotone : Bool) (id : Nat) : Prop :=
  id = s.lattice.bottom ∨ ∃ below, s.Open monotone below ∧ s.lattice.Step below id ∧
    s.marked id Mark.visited = false

section
variable {s : SolutionSpace} {monotone : Bool} {id : Nat}

theorem Candidate.isOpen (h : s.Candidate monotone id) (free : ¬s.Foreclosed monotone id) :
    s.Open monotone id := by
  rcases h with rfl | ⟨below, hbelow, hstep, hfresh⟩
  · exact .bottom free
  · exact .step hbelow hstep hfresh free

theorem Candidate.lt_size (h : s.Candidate monotone id) : id < s.lattice.size := by
  rcases h with rfl | ⟨below, -, hstep, -⟩
  · exact s.lattice.size_pos
  · exact hstep.right

theorem Open.lt_size (h : s.Open monotone id) : id < s.lattice.size := by
  cases h with
  | bottom free => exact s.lattice.size_pos
  | step below up fresh free => exact up.right

end

end SolutionSpace

namespace BestFirst

/-- A preference among transformations, and an order in which they are visited, that a
best-first search respects. -/
structure Guide (c : Checker) (l : Lattice) (prefers before : Nat → Nat → Prop) : Prop where
  trans : ∀ u v w, prefers u v → prefers v w → prefers u w
  ranked : ∀ u v, l.Ranked c.lossAt u v → prefers u v
  climbs : c.metric.isMonotone = true → ∀ u w, l.Step u w → prefers u w
  bounded : ∀ o u, before o u → c.lossAt (l.levelsAt o) ≤ c.boundAt (l.levelsAt u) →
    prefers o u
  before_trans : ∀ u v w, before u v → before v w → before u w
  queued : ∀ u v, l.Ranked c.boundAt u v → before u v
  rises : ∀ u w, l.Step u w → before u w

theorem Guide.refl {c : Checker} {l : Lattice} {prefers before : Nat → Nat → Prop}
    (h : Guide c l prefers before) (u : Nat) : prefers u u := h.ranked u u (Or.inr ⟨rfl, le_rfl⟩)

/-- Under a monotone metric a transformation is preferred to all more generalized ones. -/
theorem Guide.climbs_le {c : Checker} {l : Lattice} {prefers before : Nat → Nat → Prop}
    (h : Guide c l prefers before) (hm : c.metric.isMonotone = true) {u v : Nat}
    (hu : u < l.size) (hv : v < l.size)
    (hle : List.Forall₂ (· ≤ ·) (l.levelsAt u) (l.levelsAt v)) : prefers u v :=
  Lattice.climb_steps hu hv hle (h.refl u) fun a b hstep ha =>
    h.trans _ _ _ ha (h.climbs hm a b hstep)

/-- What holds between two visits of a search that has started from a space. `done` have been
visited and `queue` wait; the transformations above those `pending` have not been dealt with. -/
structure Underway (c : Checker) (s : SolutionSpace) (prefers before : Nat → Nat → Prop)
    (pending : Nat → Prop) (x : Exploration) (done : List Nat) (queue : List Entry) : Prop where
  precedes : c.Precedes x.checker
  lattice : x.space.lattice = s.lattice
  predictable : x.space.predictable = s.predictable
  truthful : x.space.Truthful c
  objective : x.progress.objective = .loss
  limits : x.progress.stepLimit = none ∧ x.progress.timeLimit = none
  nodup : (done ++ queue.map Entry.id).Nodup
  entries : ∀ e ∈ queue, e = c.entry s.lattice e.id
  candidates : ∀ id ∈ done ++ queue.map Entry.id, s.Candidate c.metric.isMonotone id
  sorted : Sorted queue
  ordered : done.Pairwise fun later earlier => before earlier later
  ahead : ∀ d ∈ done, ∀ e ∈ queue, before d e.id
  visited : ∀ id, x.space.marked id Mark.visited = true ↔
    s.marked id Mark.visited = true ∨ id ∈ done ++ queue.map Entry.id
  checked : ∀ id, x.space.marked id Mark.checked = true →
    s.marked id Mark.checked = true ∨ id ∈ done
  persists : ∀ id, s.marked id Mark.checked = true → x.space.marked id Mark.checked = true
  roots : ∀ root ∈ x.space.anonymousRoots, root ∈ s.anonymousRoots ∨ ∃ d ∈ done,
    s.Open c.metric.isMonotone d ∧ c.anonymousAt (s.lattice.levelsAt d) = true ∧
      root = s.lattice.levelsAt d
  predicts : ∀ id, s.predicts id Mark.anonymous = true →
    x.space.predicts id Mark.anonymous = true
  optimum : ∀ o ∈ x.progress.optimum, o ∈ done ∧ s.Open c.metric.isMonotone o ∧
    x.space.marked o Mark.checked = true ∧ c.anonymousAt (s.lattice.levelsAt o) = true
  best : ∀ d ∈ done, s.Open c.metric.isMonotone d →
    c.anonymousAt (s.lattice.levelsAt d) = true → ∃ o ∈ x.progress.optimum, prefers o d
  bottom : s.lattice.bottom ∈ done ++ queue.map Entry.id
  closed : ∀ d ∈ done, ¬pending d → s.Open c.metric.isMonotone d → ∀ w, s.lattice.Step d w →
    s.Open c.metric.isMonotone w → w ∈ done ++ queue.map Entry.id ∨
      c.metric.isMonotone = true ∧ ∃ o ∈ x.progress.optimum, prefers o w

/-! ## Visits -/

/-- A state after nothing but a transformation may have been checked. -/
structure Later (c : Checker) (x y : Exploration) (id : Nat) : Prop where
  precedes : x.checker.Precedes y.checker
  lattice : y.space.lattice = x.space.lattice
  predictable : y.space.predictable = x.space.predictable
  truthful : y.space.Truthful c
  objective : y.progress.objective = x.progress.objective
  limits : y.progress.stepLimit = x.progress.stepLimit ∧
    y.progress.timeLimit = x.progress.timeLimit
  visited : ∀ other, y.space.marked other Mark.visited = x.space.marked other Mark.visited
  checked : ∀ other, y.space.marked other Mark.checked = true →
    x.space.marked other Mark.checked = true ∨ other = id
  persists : ∀ other, x.space.marked other Mark.checked = true →
    y.space.marked other Mark.checked = true
  roots : ∀ root ∈ y.space.anonymousRoots, root ∈ x.space.anonymousRoots ∨
    root = x.space.lattice.levelsAt id ∧ c.anonymousAt root = true
  predicts : ∀ other, x.space.predicts other Mark.anonymous = true →
    y.space.predicts other Mark.anonymous = true

section
variable {c : Checker} {s : SolutionSpace} {prefers before : Nat → Nat → Prop}
  (hg : Guide c s.lattice prefers before) {x : Exploration} {done : List Nat}
  {queue : List Entry}
include hg

/-- The first entry of the queue is visited. What is above it is pending. -/
theorem Underway.pop {e : Entry}
    (h : Underway c s prefers before (fun _ => False) x done (e :: queue)) {y : Exploration}
    (hl : Later c x y e.id) (hroots : s.Open c.metric.isMonotone e.id ∨
      y.space.anonymousRoots = x.space.anonymousRoots)
    (hoptimum : ∀ o ∈ y.progress.optimum, o ∈ x.progress.optimum ∨ o = e.id ∧
      s.Open c.metric.isMonotone o ∧ y.space.marked o Mark.checked = true ∧
        c.anonymousAt (s.lattice.levelsAt o) = true)
    (hbetter : ∀ o ∈ x.progress.optimum, ∃ better ∈ y.progress.optimum, prefers better o)
    (hbest : s.Open c.metric.isMonotone e.id → c.anonymousAt (s.lattice.levelsAt e.id) = true →
      ∃ o ∈ y.progress.optimum, prefers o e.id) :
    Underway c s prefers before (· = e.id) y (e.id :: done) queue := by
  have hmem : ∀ id, id ∈ e.id :: done ++ queue.map Entry.id ↔
      id ∈ done ++ (e :: queue).map Entry.id := by
    intro id
    simp only [List.cons_append, List.mem_cons, List.mem_append, List.map_cons]
    tauto
  have hbetter' : ∀ id, (∃ o ∈ x.progress.optimum, prefers o id) →
      ∃ o ∈ y.progress.optimum, prefers o id := by
    rintro id ⟨o, ho, hprefers⟩
    obtain ⟨better, hb, hbo⟩ := hbetter o ho
    exact ⟨better, hb, hg.trans _ _ _ hbo hprefers⟩
  obtain ⟨hfirst, hrest⟩ := List.pairwise_cons.mp h.sorted
  exact {
    precedes := h.precedes.trans hl.precedes
    lattice := hl.lattice.trans h.lattice
    predictable := hl.predictable.trans h.predictable
    truthful := hl.truthful
    objective := hl.objective.trans h.objective
    limits := ⟨hl.limits.1.trans h.limits.1, hl.limits.2.trans h.limits.2⟩
    nodup := by
      have hperm : (done ++ (e :: queue).map Entry.id).Perm
          (e.id :: done ++ queue.map Entry.id) := by
        rw [List.map_cons, List.cons_append]
        exact List.perm_middle
      exact hperm.nodup_iff.mp h.nodup
    entries := fun e he => h.entries e (List.mem_cons_of_mem _ he)
    candidates := fun id hid => h.candidates id ((hmem id).mp hid)
    sorted := hrest
    ordered := List.pairwise_cons.mpr ⟨fun d hd => h.ahead d hd e List.mem_cons_self, h.ordered⟩
    ahead := by
      intro d hd other hother
      rcases List.mem_cons.mp hd with rfl | hd
      · refine hg.queued _ _ ?_
        have hbefore := hfirst other hother
        rw [h.entries e List.mem_cons_self, h.entries other (List.mem_cons_of_mem _ hother)]
          at hbefore
        exact hbefore
      · exact h.ahead d hd other (List.mem_cons_of_mem _ hother)
    visited := by
      intro id
      rw [hl.visited, h.visited, hmem]
    checked := by
      intro id hid
      rcases hl.checked id hid with hid | rfl
      · exact (h.checked id hid).imp_right (List.mem_cons_of_mem _)
      · exact Or.inr List.mem_cons_self
    persists := fun id hid => hl.persists id (h.persists id hid)
    roots := by
      intro root hroot
      have hold : root ∈ x.space.anonymousRoots → root ∈ s.anonymousRoots ∨
          ∃ d ∈ e.id :: done, s.Open c.metric.isMonotone d ∧
            c.anonymousAt (s.lattice.levelsAt d) = true ∧ root = s.lattice.levelsAt d := by
        intro hroot
        rcases h.roots root hroot with hstart | ⟨d, hd, hown⟩
        · exact Or.inl hstart
        · exact Or.inr ⟨d, List.mem_cons_of_mem _ hd, hown⟩
      rcases hroots with hopen | hsame
      · rcases hl.roots root hroot with hroot | ⟨rfl, hanonymous⟩
        · exact hold hroot
        · rw [h.lattice] at hanonymous ⊢
          exact Or.inr ⟨e.id, List.mem_cons_self, hopen, hanonymous, rfl⟩
      · exact hold (hsame ▸ hroot)
    predicts := fun id hid => hl.predicts id (h.predicts id hid)
    optimum := by
      intro o ho
      rcases hoptimum o ho with hold | ⟨rfl, hnew⟩
      · obtain ⟨hd, hopen, hchecked, hanonymous⟩ := h.optimum o hold
        exact ⟨List.mem_cons_of_mem _ hd, hopen, hl.persists o hchecked, hanonymous⟩
      · exact ⟨List.mem_cons_self, hnew⟩
    best := by
      intro d hd hopen hanonymous
      rcases List.mem_cons.mp hd with rfl | hd
      · exact hbest hopen hanonymous
      · exact hbetter' d (h.best d hd hopen hanonymous)
    bottom := (hmem _).mpr h.bottom
    closed := by
      intro d hd hpending hopen w hstep hw
      have hd := (List.mem_cons.mp hd).resolve_left hpending
      rcases h.closed d hd not_false hopen w hstep hw with hin | ⟨hm, hshaded⟩
      · exact Or.inl ((hmem w).mpr hin)
      · exact Or.inr ⟨hm, hbetter' w hshaded⟩ }

/-- What is above the last visited transformation is dealt with when it has been queued, or
cannot be preferred to the optimum. -/
theorem Underway.settle {v : Nat}
    (h : Underway c s prefers before (· = v) x (v :: done) queue)
    {space : SolutionSpace} {ids new : List Nat} {last : List Entry}
    (hq : Queued c x.space space ids new queue last)
    (hnew : ∀ w ∈ new, s.Open c.metric.isMonotone v ∧ s.lattice.Step v w)
    (hclosed : s.Open c.metric.isMonotone v → ∀ w, s.lattice.Step v w →
      s.Open c.metric.isMonotone w → w ∈ v :: done ++ queue.map Entry.id ∨ w ∈ new ∨
        c.metric.isMonotone = true ∧ ∃ o ∈ x.progress.optimum, prefers o w) :
    Underway c s prefers before (fun _ => False) { x with space } (v :: done) last := by
  have hf := hq.follows
  have hperm : (last.map Entry.id).Perm (new ++ queue.map Entry.id) := by
    have hids : (new.map (c.entry x.space.lattice)).map Entry.id = new := by
      rw [List.map_map]
      exact List.map_id new
    have hmap := hq.perm.map Entry.id
    rwa [List.map_append, hids] at hmap
  have hmem : ∀ id, id ∈ v :: done ++ last.map Entry.id ↔
      id ∈ v :: done ++ queue.map Entry.id ∨ id ∈ new := by
    intro id
    rw [List.mem_append, List.mem_append, hperm.mem_iff, List.mem_append]
    tauto
  have hfresh : ∀ id ∈ new, s.marked id Mark.visited = false ∧
      id ∉ v :: done ++ queue.map Entry.id := by
    intro id hid
    have hnot := hq.fresh id hid
    rw [← Bool.not_eq_true, h.visited, not_or, Bool.not_eq_true] at hnot
    exact hnot
  have hentries : ∀ e ∈ last, e ∈ queue ∨ ∃ id ∈ new, e = c.entry s.lattice id := by
    intro e he
    rcases List.mem_append.mp (hq.perm.mem_iff.mp he) with he | he
    · obtain ⟨id, hid, rfl⟩ := List.mem_map.mp he
      exact Or.inr ⟨id, hid, by rw [h.lattice]⟩
    · exact Or.inl he
  exact {
    precedes := h.precedes
    lattice := hf.lattice.trans h.lattice
    predictable := hf.predictable.trans h.predictable
    truthful := h.truthful.follows hf
    objective := h.objective
    limits := h.limits
    nodup := by
      have hsplit : (v :: done ++ last.map Entry.id).Perm
          (new ++ (v :: done ++ queue.map Entry.id)) :=
        (hperm.append_left _).trans (List.perm_append_comm_assoc _ _ _)
      refine hsplit.nodup_iff.mpr (List.nodup_append'.mpr ⟨hq.nodup, h.nodup, ?_⟩)
      exact fun id hid hother => (hfresh id hid).2 hother
    entries := by
      intro e he
      rcases hentries e he with he | ⟨id, -, rfl⟩
      · exact h.entries e he
      · rfl
    candidates := by
      intro id hid
      rcases (hmem id).mp hid with hid | hid
      · exact h.candidates id hid
      · exact Or.inr ⟨v, (hnew id hid).1, (hnew id hid).2, (hfresh id hid).1⟩
    sorted := hq.sorted h.sorted
    ordered := h.ordered
    ahead := by
      intro d hd e he
      rcases hentries e he with he | ⟨id, hid, rfl⟩
      · exact h.ahead d hd e he
      · have hrises := hg.rises v id (hnew id hid).2
        rcases List.mem_cons.mp hd with rfl | hd
        · exact hrises
        · exact hg.before_trans _ _ _ ((List.pairwise_cons.mp h.ordered).1 d hd) hrises
    visited := by
      intro id
      rw [hf.visited, h.visited, hmem, or_assoc]
    checked := fun id hid => h.checked id (hf.checked id ▸ hid)
    persists := fun id hid => (hf.checked id).trans (h.persists id hid)
    roots := fun root hroot => h.roots root (hf.anonymousRoots ▸ hroot)
    predicts := by
      intro id hid
      have hown := h.predicts id hid
      rw [SolutionSpace.predicts_anonymous] at hown ⊢
      rwa [hf.lattice, hf.anonymousRoots]
    optimum := by
      intro o ho
      obtain ⟨hd, hown, hchecked, hanonymous⟩ := h.optimum o ho
      exact ⟨hd, hown, (hf.checked o).trans hchecked, hanonymous⟩
    best := h.best
    bottom := (hmem _).mpr (Or.inl h.bottom)
    closed := by
      intro d hd _ hown w hstep hw
      rw [hmem]
      by_cases hv : d = v
      · subst hv
        rw [or_assoc]
        exact hclosed hown w hstep hw
      · exact (h.closed d hd hv hown w hstep hw).imp_left Or.inl }

/-- All successors of an open transformation are queued, unless they have been before. -/
theorem Underway.expand {v : Nat}
    (h : Underway c s prefers before (· = v) x (v :: done) queue)
    {space : SolutionSpace} {ids new : List Nat} {last : List Entry}
    (hopen : s.Open c.metric.isMonotone v) (hids : ∀ w, w ∈ ids ↔ s.lattice.Step v w)
    (hq : Queued c x.space space ids new queue last) :
    Underway c s prefers before (fun _ => False) { x with space } (v :: done) last := by
  refine h.settle hg hq (fun w hw => ⟨hopen, (hids w).mp (hq.subset w hw)⟩) ?_
  intro _ w hstep hw
  rcases hq.complete w ((hids w).mpr hstep) with hvisited | hnew
  · left
    rcases (h.visited w).mp hvisited with hstart | hin
    · cases hw with
      | bottom free => exact h.bottom
      | step below up fresh free =>
        rw [fresh] at hstart
        cases hstart
    · exact hin
  · exact Or.inr (Or.inl hnew)

/-- Nothing is queued above a transformation if the optimum is preferred to it and the metric is
monotone. -/
theorem Underway.prune {v : Nat}
    (h : Underway c s prefers before (· = v) x (v :: done) queue)
    {space : SolutionSpace} (hf : x.space.Follows space [])
    (hm : c.metric.isMonotone = true)
    (hshaded : s.Open c.metric.isMonotone v → ∃ o ∈ x.progress.optimum, prefers o v) :
    Underway c s prefers before (fun _ => False) { x with space } (v :: done) queue := by
  have hq : Queued c x.space space [] [] queue queue :=
    ⟨hf, by simp, List.nodup_nil, by simp, by simp, List.Perm.refl _, fun h => h⟩
  refine h.settle hg hq (by simp) fun hopen w hstep _ => Or.inr (Or.inr ⟨hm, ?_⟩)
  obtain ⟨o, ho, hprefers⟩ := hshaded hopen
  exact ⟨o, ho, hg.trans _ _ _ hprefers (hg.climbs hm _ _ hstep)⟩

end
end BestFirst
end Recoding
