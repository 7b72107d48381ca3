import Recoding.Proofs.Search.Limits

/-!
# The rounds of a best-first search

Each round of the loop takes the first transformation from the queue. What it queues bears the
mark of a visit from then on, so nothing is queued twice, and the loop ends for want of
transformations.

A round is told here from the state before it, so that the loop needs no bound on their number.
-/

namespace Recoding

open Exploration

namespace Exploration

/-- A state in which nothing has happened but that the given marks were set, and bounds. -/
structure Marks (x y : Exploration) (acquired : List (Nat × Nat)) : Prop where
  acquires : x.space.Acquires y.space acquired
  progress : y.progress = x.progress
  checker : y.checker = x.checker

theorem Marks.refl (x : Exploration) : x.Marks x [] := ⟨.refl _, rfl, rfl⟩

theorem Marks.trans {x y z : Exploration} {xs ys : List (Nat × Nat)} (h : x.Marks y xs)
    (k : y.Marks z ys) : x.Marks z (xs ++ ys) :=
  ⟨h.acquires.trans k.acquires, k.progress.trans h.progress, k.checker.trans h.checker⟩

theorem marks_of_onSpace {f : SolutionSpace → Except Failure SolutionSpace} {x y : Exploration}
    {acquired : List (Nat × Nat)} (h : run (onSpace f) x = (.ok (), y))
    (hf : ∀ after, f x.space = .ok after → x.space.Acquires after acquired) :
    x.Marks y acquired := by
  rw [run_onSpace_eq] at h
  cases hafter : f x.space with
  | error failure =>
    rw [hafter] at h
    cases h
  | ok after =>
    rw [hafter] at h
    cases h
    exact ⟨hf after hafter, rfl, rfl⟩

end Exploration

namespace BestFirst

/-! ## What is queued -/

/-- Those of the given transformations that are queued, up to a failure. -/
def queuedOf : List Nat → List Entry → Exploration → List Nat
  | [], _, _ => []
  | id :: rest, queue, x =>
    if x.space.has id Mark.visited then queuedOf rest queue x
    else
      match run (enqueue id queue) x with
      | (.error _, _) => []
      | (.ok last, y) => id :: queuedOf rest last y

/-- Those above a transformation that are queued, up to a failure. -/
def queuedAbove (id : Nat) (queue : List Entry) (x : Exploration) : List Nat :=
  match run (onSpace (·.mark id Mark.expanded)) x with
  | (.error _, _) => []
  | (.ok _, y) =>
    match y.space.lattice.successors id with
    | .error _ => []
    | .ok successors => queuedOf successors queue y

/-- The first part of a visit: whether the search continues with the transformations above. -/
def judge (monotone : Bool) (e : Entry) : Exploring Bool := do
  match verdict monotone (← get) e with
  | .drop =>
    count Counters.pruned
    return false
  | .pass =>
    count Counters.pruned
    return true
  | .check =>
    assureChecked e.id
    track e.id
    let x ← get
    return !(x.space.has e.id Mark.anonymous && monotone)

/-- The transformations that are queued in one visit, in order, up to a failure. -/
def queuedIn (monotone : Bool) (e : Entry) (queue : List Entry) (x : Exploration) : List Nat :=
  match run (judge monotone e) x with
  | (.ok true, y) => queuedAbove e.id queue y
  | _ => []

/-- A visit judges a transformation, and continues above it or does not. -/
theorem run_visit (monotone : Bool) (e : Entry) (queue : List Entry) (x : Exploration) :
    run (visit monotone e queue) x = run (judge monotone e >>= fun goesOn =>
      if goesOn then expand e.id queue else prune e.id queue) x := by
  unfold visit judge
  rw [run_get_bind, bind_assoc, run_get_bind]
  cases verdict monotone x e with
  | drop => rfl
  | pass => rfl
  | check =>
    dsimp only
    rw [bind_assoc, run_bind, run_bind]
    rcases run (assureChecked e.id) x with ⟨failure | _, y⟩
    · rfl
    · dsimp only
      rw [bind_assoc, run_bind, run_bind]
      rcases run (track e.id) y with ⟨failure | _, z⟩
      · rfl
      · dsimp only
        rw [run_get_bind, bind_assoc, run_get_bind, pure_bind]
        cases z.space.has e.id Mark.anonymous && monotone <;> rfl

section
variable {id : Nat} {ids : List Nat} {queue last : List Entry} {x y : Exploration}

theorem liftExcept_ok {α : Type} {outcome : Except Failure α} {a : α}
    (h : run (enqueue.liftExcept outcome) x = (.ok a, y)) : outcome = .ok a ∧ y = x := by
  cases outcome with
  | error failure => cases h
  | ok value =>
    cases h
    exact ⟨rfl, rfl⟩

theorem enqueue_ok (h : run (enqueue id queue) x = (.ok last, y)) :
    x.Marks y [(id, Mark.visited)] ∧ (last.map Entry.id).Perm (id :: queue.map Entry.id) := by
  have hperm : ∀ bound level,
      ((Entry.insert ⟨bound, level, id⟩ queue).map Entry.id).Perm (id :: queue.map Entry.id) :=
    fun bound level => (perm_insert ⟨bound, level, id⟩ queue).map Entry.id
  obtain ⟨_, z, hmark, h⟩ := run_bind_ok.mp h
  have hvisited := marks_of_onSpace hmark fun _ =>
    SolutionSpace.acquires_mark Mark.isMark_visited
  rw [run_get_bind] at h
  obtain ⟨levels, _, hlevels, h⟩ := run_bind_ok.mp h
  obtain ⟨-, rfl⟩ := liftExcept_ok hlevels
  obtain ⟨bound, _, hbound, h⟩ := run_bind_ok.mp h
  obtain ⟨-, rfl⟩ := liftExcept_ok hbound
  cases bound with
  | none =>
    cases h
    exact ⟨hvisited, hperm _ _⟩
  | some bound =>
    obtain ⟨_, w, hrecord, h⟩ := run_bind_ok.mp h
    cases h
    exact ⟨hvisited.trans (marks_of_onSpace hrecord fun _ => SolutionSpace.acquires_bound),
      hperm _ _⟩

/-- Nothing is queued that bears the mark of a visit, and nothing twice. -/
theorem fresh_queuedOf (ids : List Nat) (queue : List Entry) (x : Exploration) :
    (queuedOf ids queue x).Nodup ∧
      ∀ v ∈ queuedOf ids queue x, v ∈ ids ∧ x.space.marked v Mark.visited = false := by
  induction ids generalizing queue x with
  | nil => exact ⟨List.nodup_nil, fun _ hv => nomatch hv⟩
  | cons id rest ih =>
    unfold queuedOf
    rw [SolutionSpace.has_visited]
    split_ifs with hid
    · obtain ⟨hnodup, hfresh⟩ := ih queue x
      exact ⟨hnodup, fun v hv => ⟨List.mem_cons_of_mem _ (hfresh v hv).1, (hfresh v hv).2⟩⟩
    · rcases hrun : run (enqueue id queue) x with ⟨failure | last, y⟩
      · exact ⟨List.nodup_nil, fun _ hv => nomatch hv⟩
      · obtain ⟨hnodup, hfresh⟩ := ih last y
        have hmarks := (enqueue_ok hrun).1.acquires.marked
        have hother : ∀ v ∈ queuedOf rest last y,
            x.space.marked v Mark.visited = false ∧ v ≠ id := by
          intro v hv
          have hnot := (hfresh v hv).2
          rw [← Bool.not_eq_true, hmarks v _ Mark.isMark_visited] at hnot
          simpa using hnot
        refine ⟨List.nodup_cons.mpr ⟨fun hmem => (hother id hmem).2 rfl, hnodup⟩, fun v hv => ?_⟩
        rcases List.mem_cons.mp hv with rfl | hv
        · exact ⟨List.mem_cons_self, Bool.eq_false_iff.mpr hid⟩
        · exact ⟨List.mem_cons_of_mem _ (hfresh v hv).1, (hother v hv).1⟩

theorem enqueueNew_ok (h : run (enqueueNew ids queue) x = (.ok last, y)) :
    x.Marks y ((queuedOf ids queue x).map (·, Mark.visited)) ∧
      (last.map Entry.id).Perm (queuedOf ids queue x ++ queue.map Entry.id) := by
  induction ids generalizing queue x with
  | nil =>
    cases h
    exact ⟨.refl _, List.Perm.refl _⟩
  | cons id rest ih =>
    rw [enqueueNew, run_get_bind] at h
    unfold queuedOf
    split_ifs at h ⊢ with hid
    · exact ih h
    · obtain ⟨next, z, hfirst, hrest⟩ := run_bind_ok.mp h
      obtain ⟨hmarks, hperm⟩ := enqueue_ok hfirst
      obtain ⟨hmarks', hperm'⟩ := ih hrest
      rw [hfirst]
      exact ⟨hmarks.trans hmarks', hperm'.trans ((hperm.append_left _).trans List.perm_middle)⟩

theorem fresh_queuedAbove (id : Nat) (queue : List Entry) (x : Exploration) :
    (queuedAbove id queue x).Nodup ∧ ∀ v ∈ queuedAbove id queue x,
      v < x.space.lattice.size ∧ x.space.marked v Mark.visited = false := by
  unfold queuedAbove
  rcases hmark : run (onSpace (·.mark id Mark.expanded)) x with ⟨failure | _, y⟩
  · exact ⟨List.nodup_nil, fun _ hv => nomatch hv⟩
  · have hmarks := (marks_of_onSpace hmark fun _ =>
      SolutionSpace.acquires_mark Mark.isMark_expanded).acquires
    dsimp only
    cases hids : y.space.lattice.successors id with
    | error failure => exact ⟨List.nodup_nil, fun _ hv => nomatch hv⟩
    | ok ids =>
      obtain ⟨hnodup, hfresh⟩ := fresh_queuedOf ids queue y
      refine ⟨hnodup, fun v hv => ?_⟩
      obtain ⟨hmem, hnot⟩ := hfresh v hv
      rw [hmarks.lattice] at hids
      obtain ⟨levels, hlevels, -⟩ := map_eq_ok.mp hids
      obtain ⟨high, -, hhigh⟩ := (Lattice.mem_successors hlevels hids).mp hmem
      rw [← Bool.not_eq_true, hmarks.marked v _ Mark.isMark_visited, not_or] at hnot
      exact ⟨(Lattice.levelsOf_ok hhigh).1, Bool.eq_false_iff.mpr hnot.1⟩

theorem expand_ok (h : run (expand id queue) x = (.ok last, y)) :
    x.Marks y ((id, Mark.expanded) :: (queuedAbove id queue x).map (·, Mark.visited)) ∧
      (last.map Entry.id).Perm (queuedAbove id queue x ++ queue.map Entry.id) := by
  obtain ⟨_, z, hmark, h⟩ := run_bind_ok.mp h
  have hmarks := marks_of_onSpace hmark fun _ =>
    SolutionSpace.acquires_mark Mark.isMark_expanded
  rw [run_get_bind] at h
  unfold queuedAbove
  rw [hmark]
  dsimp only
  cases hids : z.space.lattice.successors id with
  | error failure =>
    rw [hids] at h
    cases h
  | ok ids =>
    rw [hids] at h
    obtain ⟨hmarks', hperm⟩ := enqueueNew_ok h
    exact ⟨hmarks.trans hmarks', hperm⟩

theorem prune_ok (h : run (prune id queue) x = (.ok last, y)) :
    x.Marks y [(id, Mark.successorsPruned)] ∧ last = queue := by
  obtain ⟨_, z, hmark, h⟩ := run_bind_ok.mp h
  cases h
  exact ⟨marks_of_onSpace hmark fun _ =>
    SolutionSpace.acquires_mark Mark.isMark_successorsPruned, rfl⟩

end

/-! ## Visits -/

def pruned (x : Exploration) : Nat := x.checker.counters.nodesPruned

/-- What happens to a transformation in a visit: it is checked, or counted as pruned, or has been
checked before. -/
inductive Dealt (x y : Exploration) (id : Nat) (own : List Nat) : Prop where
  | checked (mem : Mark.checked ∈ own) (checks : y.progress.checks = x.progress.checks + 1)
      (pruned : pruned y = pruned x)
  | pruned (notMem : Mark.checked ∉ own) (checks : y.progress.checks = x.progress.checks)
      (pruned : BestFirst.pruned y = BestFirst.pruned x + 1)
  | settled (marked : x.space.marked id Mark.checked = true)
      (checks : y.progress.checks = x.progress.checks) (pruned : pruned y = pruned x)

theorem Dealt.marks {x y z : Exploration} {id mark : Nat} {own : List Nat}
    {acquired : List (Nat × Nat)} (h : Dealt x y id own) (hm : y.Marks z acquired)
    (hne : mark ≠ Mark.checked) : Dealt x z id (own ++ [mark]) := by
  have hchecks : z.progress.checks = y.progress.checks := by rw [hm.progress]
  have hpruned : BestFirst.pruned z = BestFirst.pruned y :=
    congrArg (·.counters.nodesPruned) hm.checker
  cases h with
  | checked mem checks pruned =>
    exact .checked (List.mem_append_left _ mem) (hchecks.trans checks) (hpruned.trans pruned)
  | pruned notMem checks pruned =>
    exact .pruned (by simp [notMem, hne.symm]) (hchecks.trans checks) (hpruned.trans pruned)
  | settled marked checks pruned =>
    exact .settled marked (hchecks.trans checks) (hpruned.trans pruned)

section
variable {monotone goesOn : Bool} {e : Entry} {queue last : List Entry} {x y : Exploration}

theorem judge_ok (h : run (judge monotone e) x = (.ok goesOn, y)) :
    ∃ own : List Nat, x.space.Acquires y.space (own.map (e.id, ·)) ∧
      (∀ mark ∈ own, mark ∈ [Mark.checked, Mark.anonymous, Mark.notAnonymous]) ∧
        Dealt x y e.id own := by
  unfold judge at h
  rw [run_get_bind] at h
  cases hverdict : verdict monotone x e with
  | drop | pass =>
    rw [hverdict] at h
    cases h
    exact ⟨[], .refl _, by simp, .pruned List.not_mem_nil rfl rfl⟩
  | check =>
    rw [hverdict] at h
    obtain ⟨_, z, hrun, h⟩ := run_bind_ok.mp h
    cases h
    have htrack : ∀ (p : Progress) s, (p.track s e.id).checks = p.checks := fun p s => by
      rw [Progress.track_eq]
    rcases assureChecked_ok hrun with ⟨hsettled, rfl⟩ | ⟨e', checker, space, hcheck, rfl⟩
    · rw [Progress.isSettled, Bool.and_eq_true, SolutionSpace.has_checked] at hsettled
      exact ⟨[], .refl _, by simp, .settled hsettled.1 (htrack _ _) rfl⟩
    · obtain ⟨own, hown, hchecked, hall⟩ :=
        SolutionSpace.acquires_record (SolutionSpace.check_records hcheck)
      have hpruned := congrArg Counters.nodesPruned (ofSearch_of_check hcheck)
      exact ⟨own, hown, hall, .checked hchecked (htrack _ _) hpruned⟩

/-- Nothing is queued in a visit that bears the mark of one, and nothing twice. -/
theorem fresh_queuedIn (monotone : Bool) (e : Entry) (queue : List Entry) (x : Exploration) :
    (queuedIn monotone e queue x).Nodup ∧ ∀ v ∈ queuedIn monotone e queue x,
      v < x.space.lattice.size ∧ x.space.marked v Mark.visited = false := by
  unfold queuedIn
  rcases hjudge : run (judge monotone e) x with ⟨failure | _ | _, y⟩
  · exact ⟨List.nodup_nil, fun _ hv => nomatch hv⟩
  · exact ⟨List.nodup_nil, fun _ hv => nomatch hv⟩
  · obtain ⟨own, hown, -, -⟩ := judge_ok hjudge
    obtain ⟨hnodup, hfresh⟩ := fresh_queuedAbove e.id queue y
    refine ⟨hnodup, fun v hv => ?_⟩
    obtain ⟨hlt, hnot⟩ := hfresh v hv
    rw [← Bool.not_eq_true, hown.marked v _ Mark.isMark_visited, not_or] at hnot
    exact ⟨hown.lattice ▸ hlt, Bool.eq_false_iff.mpr hnot.1⟩

/-- What a visit that succeeds has done. Either the search continues above the transformation or
it does not, and both are marked. -/
theorem visit_ok (h : run (visit monotone e queue) x = (.ok last, y)) :
    ∃ own : List Nat, x.space.Acquires y.space
        (own.map (e.id, ·) ++ (queuedIn monotone e queue x).map (·, Mark.visited)) ∧
      Mark.visited ∉ own ∧ (Mark.expanded ∈ own ↔ Mark.successorsPruned ∉ own) ∧
      Dealt x y e.id own ∧
      (last.map Entry.id).Perm (queuedIn monotone e queue x ++ queue.map Entry.id) := by
  rw [run_visit] at h
  obtain ⟨goesOn, z, hjudge, h⟩ := run_bind_ok.mp h
  obtain ⟨own, hown, hverdicts, hdealt⟩ := judge_ok hjudge
  have hnone : ∀ mark ∉ [Mark.checked, Mark.anonymous, Mark.notAnonymous], mark ∉ own :=
    fun mark hmark hmem => hmark (hverdicts mark hmem)
  have hvisited := hnone Mark.visited (by decide)
  have hexpanded := hnone Mark.expanded (by decide)
  have hpruned := hnone Mark.successorsPruned (by decide)
  unfold queuedIn
  rw [hjudge]
  cases goesOn with
  | true =>
    obtain ⟨hmarks, hperm⟩ := expand_ok h
    refine ⟨own ++ [Mark.expanded], by simpa using hown.trans hmarks.acquires, ?_, ?_,
      hdealt.marks hmarks (by decide), hperm⟩
    · simp [hvisited, show Mark.visited ≠ Mark.expanded by decide]
    · simp [hpruned, show Mark.successorsPruned ≠ Mark.expanded by decide]
  | false =>
    obtain ⟨hmarks, rfl⟩ := prune_ok h
    refine ⟨own ++ [Mark.successorsPruned], by simpa using hown.trans hmarks.acquires, ?_, ?_,
      hdealt.marks hmarks (by decide), List.Perm.refl _⟩
    · simp [hvisited, show Mark.visited ≠ Mark.successorsPruned by decide]
    · simp [hexpanded, show Mark.expanded ≠ Mark.successorsPruned by decide]

end

/-! ## Rounds -/

/-- What one round of the loop comes to. -/
structure Round where
  /-- The transformation that is taken from the queue. -/
  id : Nat
  /-- The transformations that are queued, in order. -/
  queued : List Nat
  /-- The number of checks. -/
  checks : Nat
  /-- The number of transformations that are counted as pruned. -/
  pruned : Nat

/-- The round in which a transformation is visited. -/
def roundOf (monotone : Bool) (e : Entry) (queue : List Entry) (x : Exploration) : Round :=
  let y := (run (visit monotone e queue) x).2
  ⟨e.id, queuedIn monotone e queue x, y.progress.checks - x.progress.checks, pruned y - pruned x⟩

/-- The rounds of the loop from a state on, its answer and the state in which it ends. Before each
visit the limits are asked, and the clock is read once a round. -/
inductive Loop (clock : Nat → Nat) (monotone : Bool) :
    Nat → List Entry → Exploration → List Round → Except Failure Bool × Exploration → Prop
  | exhausted (turn : Nat) (x : Exploration) :
      Loop clock monotone turn [] x [] (run (finish true) x)
  | stopped {turn : Nat} {x : Exploration} (e : Entry) (queue : List Entry)
      (hstop : x.progress.mustStop (clock turn) = true) :
      Loop clock monotone turn (e :: queue) x [⟨e.id, [], 0, 0⟩] (run (finish false) x)
  | failed {turn : Nat} {e : Entry} {queue : List Entry} {x y : Exploration} {failure : Failure}
      (hgo : x.progress.mustStop (clock turn) = false)
      (hvisit : run (visit monotone e queue) x = (.error failure, y)) :
      Loop clock monotone turn (e :: queue) x [roundOf monotone e queue x] (.error failure, y)
  | visited {turn : Nat} {e : Entry} {queue last : List Entry} {x y : Exploration}
      {rounds : List Round} {result : Except Failure Bool × Exploration}
      (hgo : x.progress.mustStop (clock turn) = false)
      (hvisit : run (visit monotone e queue) x = (.ok last, y))
      (hrest : Loop clock monotone (turn + 1) last y rounds result) :
      Loop clock monotone turn (e :: queue) x (roundOf monotone e queue x :: rounds) result

/-- What was taken or waited before a visit is taken or waits after it, and so does what was queued
in it. -/
theorem perm_taken (e : Entry) {queue last : List Entry} (taken : List Nat) {new : List Nat}
    (h : (last.map Entry.id).Perm (new ++ queue.map Entry.id)) :
    (taken ++ (e :: queue).map Entry.id ++ new).Perm (taken ++ [e.id] ++ last.map Entry.id) := by
  rw [List.map_cons, List.append_assoc, List.append_assoc, List.cons_append, List.singleton_append]
  exact ((List.perm_append_comm.trans h.symm).cons e.id).append_left taken

/-- What has been queued so far is what has been taken from the queue and what is left in it. -/
structure Inventory (l : Lattice) (x : Exploration) (queue : List Entry)
    (taken queued : List Nat) : Prop where
  lattice : x.space.lattice = l
  nodup : queued.Nodup
  known : ∀ id ∈ queued, id < l.size
  perm : queued.Perm (taken ++ queue.map Entry.id)
  visited : ∀ id ∈ queued, x.space.marked id Mark.visited = true

section
variable {l : Lattice} {x y : Exploration} {e : Entry} {queue last : List Entry}
  {taken queued : List Nat}

theorem Inventory.append (h : Inventory l x queue taken queued) {fresh : List Nat}
    (hnodup : fresh.Nodup)
    (hfresh : ∀ v ∈ fresh, v < l.size ∧ x.space.marked v Mark.visited = false) :
    (queued ++ fresh).Nodup ∧ ∀ v ∈ queued ++ fresh, v < l.size := by
  refine ⟨List.nodup_append.mpr ⟨h.nodup, hnodup, ?_⟩, fun v hv => ?_⟩
  · rintro v hv _ hnew rfl
    have hvisited := h.visited v hv
    rw [(hfresh v hnew).2] at hvisited
    cases hvisited
  · exact (List.mem_append.mp hv).elim (h.known v) fun hnew => (hfresh v hnew).1

theorem Inventory.visit (h : Inventory l x (e :: queue) taken queued) {monotone : Bool}
    (hvisit : run (visit monotone e queue) x = (.ok last, y)) :
    Inventory l y last (taken ++ [e.id]) (queued ++ queuedIn monotone e queue x) := by
  obtain ⟨own, hown, -, -, -, hperm⟩ := visit_ok hvisit
  obtain ⟨hnodup, hfresh⟩ := fresh_queuedIn monotone e queue x
  rw [h.lattice] at hfresh
  obtain ⟨hnodup, hknown⟩ := h.append hnodup hfresh
  refine ⟨hown.lattice.trans h.lattice, hnodup, hknown,
    (h.perm.append_right _).trans (perm_taken e taken hperm), fun v hv => ?_⟩
  rw [hown.marked v _ Mark.isMark_visited]
  rcases List.mem_append.mp hv with hold | hnew
  · exact Or.inl (h.visited v hold)
  · exact Or.inr (by simp [hnew])

/-- Once as many transformations have been taken from the queue as there are, it is empty. -/
theorem Inventory.eq_nil (h : Inventory l x queue taken queued) (htaken : taken.length = l.size) :
    queue = [] := by
  have hsubset : queued ⊆ List.range l.size := fun v hv => List.mem_range.mpr (h.known v hv)
  have hle := (List.subperm_of_subset h.nodup hsubset).length_le
  rw [h.perm.length_eq, List.length_append, List.length_map, List.length_range, htaken] at hle
  exact List.eq_nil_of_length_eq_zero (by omega)

/-- As many rounds as there are transformations are enough. -/
theorem Inventory.loop (clock : Nat → Nat) (monotone : Bool) (visits turn : Nat)
    (h : Inventory l x queue taken queued) (hvisits : taken.length + visits = l.size) :
    ∃ rounds, Loop clock monotone turn queue x rounds
        (run (visitAll clock monotone visits turn queue) x) ∧
      (queued ++ rounds.flatMap Round.queued).Nodup ∧
      (∀ v ∈ queued ++ rounds.flatMap Round.queued, v < l.size) ∧ rounds.length ≤ visits := by
  induction visits generalizing turn queue x taken queued with
  | zero =>
    obtain rfl := h.eq_nil hvisits
    exact ⟨[], .exhausted turn x, by simpa using h.nodup, by simpa using h.known, le_rfl⟩
  | succ visits ih =>
    cases queue with
    | nil =>
      exact ⟨[], .exhausted turn x, by simpa using h.nodup, by simpa using h.known,
        Nat.zero_le _⟩
    | cons e queue =>
      rw [visitAll, run_get_bind]
      split_ifs with hstop
      · exact ⟨_, .stopped e queue hstop, by simpa using h.nodup, by simpa using h.known,
          Nat.le_add_left 1 visits⟩
      · have hgo := Bool.eq_false_iff.mpr hstop
        rw [run_bind]
        rcases hvisit : run (BestFirst.visit monotone e queue) x with ⟨failure | last, y⟩
        · obtain ⟨hnodup, hfresh⟩ := fresh_queuedIn monotone e queue x
          rw [h.lattice] at hfresh
          obtain ⟨hnodup, hknown⟩ := h.append hnodup hfresh
          exact ⟨_, .failed hgo hvisit, by simpa [roundOf] using hnodup,
            by simpa [roundOf] using hknown, Nat.le_add_left 1 visits⟩
        · obtain ⟨rounds, hloop, hnodup, hknown, hlength⟩ := ih (turn + 1) (h.visit hvisit)
            (by rw [List.length_append, List.length_singleton]; omega)
          exact ⟨_, .visited hgo hvisit hloop, by simpa [roundOf] using hnodup,
            by simpa [roundOf] using hknown, Nat.succ_le_succ hlength⟩

end

/-! ## The account of a traversal -/

/-- A state of a traversal of a new space: just what has been queued bears the mark of a visit,
and what still waits has not been dealt with. -/
structure Orderly (x : Exploration) (queue : List Entry) (taken : List Nat) : Prop where
  nodup : (taken ++ queue.map Entry.id).Nodup
  visited : ∀ id, x.space.marked id Mark.visited = true ↔ id ∈ taken ++ queue.map Entry.id
  waiting : ∀ id ∉ taken, ∀ mark ∈ [Mark.checked, Mark.expanded, Mark.successorsPruned],
    x.space.marked id mark = false

/-- How a round has dealt with its transformation: by one check, or by counting it as pruned. -/
structure Round.Settles (round : Round) (s : SolutionSpace) : Prop where
  either : round.checks = 1 ∧ round.pruned = 0 ∧ s.marked round.id Mark.checked = true ∨
    round.checks = 0 ∧ round.pruned = 1 ∧ s.marked round.id Mark.checked = false
  closed : s.marked round.id Mark.expanded = !s.marked round.id Mark.successorsPruned

theorem Round.Settles.congr {round : Round} {s t : SolutionSpace} (h : round.Settles s)
    (hsame : ∀ mark ∈ [Mark.checked, Mark.expanded, Mark.successorsPruned],
      t.marked round.id mark = s.marked round.id mark) : round.Settles t where
  either := by
    rw [hsame _ (by simp)]
    exact h.either
  closed := by
    rw [hsame _ (by simp), hsame _ (by simp)]
    exact h.closed

/-- What rounds have come to, from a state in which some transformations have been dealt with. -/
structure Accounted (x z : Exploration) (taken : List Nat) (rounds : List Round) : Prop where
  nodup : (taken ++ rounds.map Round.id).Nodup
  visited : ∀ id, z.space.marked id Mark.visited = true ↔ id ∈ taken ++ rounds.map Round.id
  kept : ∀ id ∈ taken, ∀ mark ∈ [Mark.checked, Mark.expanded, Mark.successorsPruned],
    z.space.marked id mark = x.space.marked id mark
  settled : ∀ round ∈ rounds, round.Settles z.space
  checks : z.progress.checks = x.progress.checks + (rounds.map Round.checks).sum
  pruned : pruned z = pruned x + (rounds.map Round.pruned).sum

section
variable {x y z : Exploration} {e : Entry} {queue last : List Entry} {taken : List Nat}
  {monotone : Bool}

theorem isMark_dealt {mark : Nat}
    (h : mark ∈ [Mark.checked, Mark.expanded, Mark.successorsPruned]) :
    Mark.IsMark mark ∧ mark ≠ Mark.visited := by
  simp only [List.mem_cons, List.not_mem_nil, or_false] at h
  rcases h with rfl | rfl | rfl
  · exact ⟨Mark.isMark_checked, by decide⟩
  · exact ⟨Mark.isMark_expanded, by decide⟩
  · exact ⟨Mark.isMark_successorsPruned, by decide⟩

theorem marked_visit {own queued : List Nat} (hown : x.space.Acquires y.space
      (own.map (e.id, ·) ++ queued.map (·, Mark.visited))) (id : Nat) {mark : Nat}
    (hmark : mark ∈ [Mark.checked, Mark.expanded, Mark.successorsPruned]) :
    y.space.marked id mark = true ↔
      x.space.marked id mark = true ∨ mark ∈ own ∧ e.id = id := by
  obtain ⟨hm, hne⟩ := isMark_dealt hmark
  rw [hown.marked id mark hm]
  simp [hne.symm]

theorem kept_visit {own queued : List Nat} (hown : x.space.Acquires y.space
      (own.map (e.id, ·) ++ queued.map (·, Mark.visited))) {id mark : Nat} (hne : e.id ≠ id)
    (hmark : mark ∈ [Mark.checked, Mark.expanded, Mark.successorsPruned]) :
    y.space.marked id mark = x.space.marked id mark := by
  rw [Bool.eq_iff_iff, marked_visit hown id hmark]
  simp [hne]

theorem roundOf_ok (hvisit : run (visit monotone e queue) x = (.ok last, y)) :
    roundOf monotone e queue x = ⟨e.id, queuedIn monotone e queue x,
      y.progress.checks - x.progress.checks, pruned y - pruned x⟩ := by
  rw [roundOf, hvisit]

theorem counted_visit (hvisit : run (visit monotone e queue) x = (.ok last, y)) :
    y.progress.checks = x.progress.checks + (roundOf monotone e queue x).checks ∧
      pruned y = pruned x + (roundOf monotone e queue x).pruned := by
  obtain ⟨own, -, -, -, hdealt, -⟩ := visit_ok hvisit
  rw [roundOf_ok hvisit]
  dsimp only
  cases hdealt <;> omega

theorem Orderly.notMem_taken (h : Orderly x (e :: queue) taken) : e.id ∉ taken := by
  have hdisjoint := (List.nodup_append'.mp h.nodup).2.2
  exact fun hmem => hdisjoint hmem (by simp)

/-- The transformation has not been dealt with before, so its marks are those of this visit. -/
theorem Orderly.gained (h : Orderly x (e :: queue) taken) {own queued : List Nat}
    (hown : x.space.Acquires y.space (own.map (e.id, ·) ++ queued.map (·, Mark.visited)))
    {mark : Nat} (hmark : mark ∈ [Mark.checked, Mark.expanded, Mark.successorsPruned]) :
    y.space.marked e.id mark = true ↔ mark ∈ own := by
  rw [marked_visit hown e.id hmark, h.waiting e.id h.notMem_taken mark hmark]
  simp

theorem Orderly.settles (h : Orderly x (e :: queue) taken)
    (hvisit : run (visit monotone e queue) x = (.ok last, y)) :
    (roundOf monotone e queue x).Settles y.space := by
  obtain ⟨own, hown, -, hclosed, hdealt, -⟩ := visit_ok hvisit
  rw [roundOf_ok hvisit]
  constructor
  · rw [← Bool.not_eq_true, h.gained hown (by simp)]
    dsimp only
    cases hdealt with
    | checked mem checks pruned => exact Or.inl ⟨by omega, by omega, mem⟩
    | pruned notMem checks pruned => exact Or.inr ⟨by omega, by omega, notMem⟩
    | settled marked checks pruned =>
      rw [h.waiting e.id h.notMem_taken _ (by simp)] at marked
      cases marked
  · rw [Bool.eq_iff_iff, Bool.not_eq_true', ← Bool.not_eq_true, h.gained hown (by simp),
      h.gained hown (by simp)]
    exact hclosed

theorem Orderly.kept (h : Orderly x (e :: queue) taken)
    (hvisit : run (visit monotone e queue) x = (.ok last, y)) {id mark : Nat} (hid : id ∈ taken)
    (hmark : mark ∈ [Mark.checked, Mark.expanded, Mark.successorsPruned]) :
    y.space.marked id mark = x.space.marked id mark := by
  obtain ⟨own, hown, -⟩ := visit_ok hvisit
  exact kept_visit hown (fun he => h.notMem_taken (he ▸ hid)) hmark

theorem Orderly.visit (h : Orderly x (e :: queue) taken)
    (hvisit : run (visit monotone e queue) x = (.ok last, y)) :
    Orderly y last (taken ++ [e.id]) := by
  obtain ⟨own, hown, hvisited, -, -, hperm⟩ := visit_ok hvisit
  obtain ⟨hnodup, hfresh⟩ := fresh_queuedIn monotone e queue x
  have hperm := perm_taken e taken hperm
  refine ⟨hperm.nodup_iff.mp ?_, fun id => ?_, fun id hid mark hmark => ?_⟩
  · refine List.nodup_append.mpr ⟨h.nodup, hnodup, ?_⟩
    rintro v hv _ hnew rfl
    rw [← h.visited, (hfresh v hnew).2] at hv
    cases hv
  · rw [hown.marked id _ Mark.isMark_visited, h.visited, ← hperm.mem_iff]
    refine (or_congr_right ?_).trans List.mem_append.symm
    simp [hvisited]
  · rw [List.mem_append, List.mem_singleton, not_or] at hid
    rw [kept_visit hown (Ne.symm hid.2) hmark]
    exact h.waiting id hid.1 mark hmark

/-- When a traversal of a new space is through, everything that it has visited is accounted
for. -/
theorem Loop.accounted {clock : Nat → Nat} {turn : Nat} {rounds : List Round}
    {result : Except Failure Bool × Exploration}
    (hloop : Loop clock monotone turn queue x rounds result) (hok : result = (.ok true, z))
    (h : Orderly x queue taken) : Accounted x z taken rounds := by
  induction hloop generalizing taken with
  | exhausted turn x =>
    cases hok
    exact ⟨by simpa using h.nodup, by simpa using h.visited, fun _ _ _ _ => rfl, by simp, rfl, rfl⟩
  | stopped e queue hstop => cases hok
  | failed hgo hvisit => cases hok
  | @visited turn e queue last x y rounds result hgo hvisit hrest ih =>
    obtain ⟨hchecks, hpruned⟩ := counted_visit hvisit
    have hlater := ih hok (h.visit hvisit)
    have hsame := hlater.kept e.id (by simp)
    refine ⟨by simpa [roundOf] using hlater.nodup, by simpa [roundOf] using hlater.visited,
      fun id hid mark hmark => ?_, ?_, ?_, ?_⟩
    · rw [hlater.kept id (List.mem_append_left _ hid) mark hmark, h.kept hvisit hid hmark]
    · exact List.forall_mem_cons.mpr ⟨(h.settles hvisit).congr hsame, hlater.settled⟩
    · rw [hlater.checks, hchecks, List.map_cons, List.sum_cons, Nat.add_assoc]
    · rw [hlater.pruned, hpruned, List.map_cons, List.sum_cons, Nat.add_assoc]

end

theorem sum_settled {s : SolutionSpace} {rounds : List Round}
    (h : ∀ round ∈ rounds, round.Settles s) :
    (rounds.map Round.checks).sum + (rounds.map Round.pruned).sum = rounds.length := by
  induction rounds with
  | nil => rfl
  | cons round rest ih =>
    obtain ⟨hround, hrest⟩ := List.forall_mem_cons.mp h
    have hrest := ih hrest
    rw [List.map_cons, List.map_cons, List.sum_cons, List.sum_cons, List.length_cons]
    rcases hround.either with ⟨hchecks, hpruned, -⟩ | ⟨hchecks, hpruned, -⟩ <;> omega

/-- What a traversal queues, its rounds, its answer and the state in which it ends. It begins with
the bottom, whether or not an earlier traversal has visited it. -/
inductive Traversed (clock : Nat → Nat) (x : Exploration) :
    List Nat → List Round → Except Failure Bool × Exploration → Prop
  | refused {failure : Failure} {y : Exploration}
      (hbottom : run (enqueue x.space.lattice.bottom []) x = (.error failure, y)) :
      Traversed clock x [] [] (.error failure, y)
  | looped {queue : List Entry} {y : Exploration} {rounds : List Round}
      {result : Except Failure Bool × Exploration}
      (hbottom : run (enqueue x.space.lattice.bottom []) x = (.ok queue, y))
      (hloop : Loop clock x.checker.metric.isMonotone 0 queue y rounds result) :
      Traversed clock x (x.space.lattice.bottom :: rounds.flatMap Round.queued) rounds result

section
variable {l : Lattice} {x y : Exploration} {queue : List Entry}

theorem inventory_bottom (hl : x.space.lattice = l)
    (h : run (enqueue l.bottom []) x = (.ok queue, y)) :
    Inventory l y queue [] [l.bottom] where
  lattice := (enqueue_ok h).1.acquires.lattice.trans hl
  nodup := List.nodup_singleton _
  known id hid := List.mem_singleton.mp hid ▸ l.size_pos
  perm := (enqueue_ok h).2.symm
  visited id hid := by
    rw [(enqueue_ok h).1.acquires.marked id _ Mark.isMark_visited, List.mem_singleton.mp hid]
    exact Or.inr List.mem_cons_self

theorem orderly_bottom (hx : ∀ id mark, x.space.marked id mark = false)
    (h : run (enqueue l.bottom []) x = (.ok queue, y)) : Orderly y queue [] := by
  obtain ⟨hmarks, hperm⟩ := enqueue_ok h
  have hmarked : ∀ id mark, Mark.IsMark mark →
      (y.space.marked id mark = true ↔ id = l.bottom ∧ mark = Mark.visited) := by
    intro id mark hm
    rw [hmarks.acquires.marked id mark hm, hx]
    simp
  refine ⟨hperm.nodup_iff.mpr (List.nodup_singleton _), fun id => ?_, fun id _ mark hmark => ?_⟩
  · rw [hmarked id _ Mark.isMark_visited, List.nil_append, hperm.mem_iff]
    simp
  · obtain ⟨hm, hne⟩ := isMark_dealt hmark
    rw [← Bool.not_eq_true, hmarked id mark hm]
    exact fun h => hne h.2

end

theorem Accounted.ncard_visited {x z : Exploration} {rounds : List Round}
    (h : Accounted x z [] rounds) :
    {id | z.space.marked id Mark.visited = true}.ncard = rounds.length := by
  have hset : {id | z.space.marked id Mark.visited = true} =
      ↑(rounds.map Round.id).toFinset := by
    ext id
    simpa using h.visited id
  have hnodup : (rounds.map Round.id).Nodup := h.nodup
  rw [hset, Set.ncard_coe_finset, List.toFinset_card_of_nodup hnodup, List.length_map]

/-- Each transformation that has been visited is one more check or one more that is pruned. -/
theorem Accounted.balance {x z : Exploration} {rounds : List Round} (h : Accounted x z [] rounds) :
    {id | z.space.marked id Mark.visited = true}.ncard +
        (x.progress.checks + BestFirst.pruned x) =
      z.progress.checks + BestFirst.pruned z := by
  have hsum := sum_settled h.settled
  have hchecks := h.checks
  have hpruned := h.pruned
  rw [h.ncard_visited]
  omega

end BestFirst

open BestFirst

/-- A best-first search queues nothing twice and ends after at most as many rounds as there are
transformations. If it goes through a new space, each transformation that it visits is checked
once or counted as pruned once, and the search continues above it or does not. -/
theorem Search.rounds_account {s : Search} (hplan : s.plan = .bestFirst) (clock : Nat → Nat)
    (checker : Checker) (space : SolutionSpace) :
    ∃ queued rounds, Traversed clock (s.begun checker space) queued rounds
        ((s.traverse clock checker space).1, s.ended clock checker space) ∧
      queued.Nodup ∧ (∀ id ∈ queued, id < space.lattice.size) ∧
      rounds.length ≤ space.lattice.size ∧
      (space = .ofLattice space.lattice → (s.traverse clock checker space).1 = .ok true →
        (rounds.map Round.id).Nodup ∧
        (∀ id, (s.ended clock checker space).space.marked id Mark.visited = true ↔
          id ∈ rounds.map Round.id) ∧
        (∀ round ∈ rounds, round.Settles (s.ended clock checker space).space) ∧
        {id | (s.ended clock checker space).space.marked id Mark.visited = true}.ncard +
            checker.counters.nodesPruned =
          (s.ended clock checker space).progress.checks +
            (s.ended clock checker space).checker.counters.nodesPruned ∧
        (s.ended clock checker space).checker.counters.checks =
          checker.counters.checks + (s.ended clock checker space).progress.checks) := by
  have hrun := s.run_traversal clock checker space
  have hlattice := s.begun_lattice checker space
  rw [Search.traversal, hplan] at hrun
  dsimp only at hrun
  rw [run_bind] at hrun
  rcases hbottom : run (enqueue space.lattice.bottom []) (s.begun checker space) with
    ⟨failure | queue, y⟩
  · rw [hbottom] at hrun
    refine ⟨[], [], hrun ▸ .refused (by rw [hlattice, hbottom]), List.nodup_nil, by simp,
      Nat.zero_le _, fun _ hok => ?_⟩
    rw [← congrArg Prod.fst hrun] at hok
    cases hok
  · rw [hbottom] at hrun
    dsimp only at hrun
    obtain ⟨rounds, hloop, hnodup, hknown, hlength⟩ :=
      (inventory_bottom hlattice hbottom).loop clock checker.metric.isMonotone space.lattice.size
        0 (Nat.zero_add _)
    rw [hrun] at hloop
    refine ⟨space.lattice.bottom :: rounds.flatMap Round.queued, rounds, ?_, hnodup, hknown,
      hlength, fun hnew hok => ?_⟩
    · rw [← hlattice] at hbottom ⊢
      exact .looped hbottom (by rwa [s.begun_metric])
    · have hempty : ∀ id mark, (s.begun checker space).space.marked id mark = false := by
        intro id mark
        rw [Search.begun, hplan, hnew]
        exact SolutionSpace.marked_ofLattice space.lattice id mark
      have h := hloop.accounted (Prod.ext hok rfl) (orderly_bottom hempty hbottom)
      have hmarks := (enqueue_ok hbottom).1
      have hchecks : y.progress.checks = 0 := by
        rw [hmarks.progress, s.begun_progress]
        rfl
      have hpruned : pruned y = checker.counters.nodesPruned := by
        rw [pruned, hmarks.checker, s.begun_counters]
      refine ⟨h.nodup, h.visited, h.settled, ?_, ?_⟩
      · have hbalance := h.balance
        rwa [hchecks, Nat.zero_add, hpruned] at hbalance
      · have htally := tallies_searching.traversal (s := s) (fun hdraw => absurd hplan hdraw) clock
          checker.metric space.lattice _ true _
          ((s.run_traversal clock checker space).trans (Prod.ext hok rfl))
        rw [s.begun_progress] at htally
        unfold PrivateWalk.checks at htally
        rw [s.begun_counters] at htally
        exact htally

open Sample in
/-- Both transformations of the sample are visited, and each of them is checked. -/
theorem Search.rounds_account_sample :
    search.plan = .bestFirst ∧
    (search.traverse surroundings.clock (checker keeping) (.ofLattice lattice)).1 = .ok true ∧
    ∃ queued rounds, queued.Nodup ∧ rounds.length ≤ 2 ∧
      Traversed surroundings.clock (search.begun (checker keeping) (.ofLattice lattice)) queued
        rounds (.ok true, search.ended surroundings.clock (checker keeping) (.ofLattice lattice)) ∧
      (∀ round ∈ rounds, round.Settles
        (search.ended surroundings.clock (checker keeping) (.ofLattice lattice)).space) ∧
      {id | (search.ended surroundings.clock (checker keeping)
        (.ofLattice lattice)).space.marked id Mark.visited = true}.ncard = 2 := by
  have hok : (search.traverse surroundings.clock (checker keeping)
      (.ofLattice lattice)).1 = .ok true := eq_ok_of_toOption (by decide +kernel)
  have hchecks : (search.ended surroundings.clock (checker keeping)
      (.ofLattice lattice)).progress.checks = 2 := by decide +kernel
  have hpruned : (search.ended surroundings.clock (checker keeping)
      (.ofLattice lattice)).checker.counters.nodesPruned = 0 := by decide +kernel
  obtain ⟨queued, rounds, htraversed, hnodup, -, hlength, haccount⟩ :=
    Search.rounds_account (s := search) rfl surroundings.clock (checker keeping)
      (.ofLattice lattice)
  obtain ⟨-, -, hsettled, hcount, -⟩ := haccount rfl hok
  rw [hchecks, hpruned] at hcount
  exact ⟨rfl, hok, queued, rounds, hnodup, hlength, hok ▸ htraversed, hsettled, hcount⟩

end Recoding
