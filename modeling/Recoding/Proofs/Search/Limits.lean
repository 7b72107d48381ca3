import Recoding.Proofs.Search.Journal
import Recoding.Proofs.Search.Reused

/-!
# The step limit

A best-first search asks before each visit whether its limits are reached, and a visit makes one
check at most, so it never makes more checks than its step limit says. A private walk asks only
after a draw. By then it has checked the top and all that has been listed, so it may make more
checks by as many as one step can list.
-/

namespace Recoding

open Exploration PrivateWalk

/-! ## Counting checks -/

namespace Exploration

/-- A part of a search that counts as many checks as its checker does, if it succeeds. -/
def Tallies {α : Type} (m : Exploring α) : Prop :=
  ∀ x a y, run m x = (.ok a, y) → checks y + x.progress.checks = checks x + y.progress.checks

theorem tallies_compositional : Compositional (Tallies ·) where
  pure _ _ _ _ h := by
    cases h
    rfl
  throw _ _ _ _ h := nomatch h
  bind {α β m f} hm hf x b z h := by
    obtain ⟨a, y, hfirst, hrest⟩ := run_bind_ok.mp h
    have hx := hm x a y hfirst
    have hy := hf a y b z hrest
    omega
  read {β f} hf _ x b z h := hf x x b z h

theorem tallies_onSpace (f : SolutionSpace → Except Failure SolutionSpace) :
    Tallies (onSpace f) := by
  intro x _ y h
  rw [run_onSpace_eq] at h
  cases hspace : f x.space <;> rw [hspace] at h <;> cases h
  rfl

theorem ofSearch_of_check {c checker : Checker} {s space : SolutionSpace} {id : Nat}
    {objective : Objective} {e : Evaluation}
    (h : c.check s id false objective = (.ok e, checker, space)) :
    checker.counters.ofSearch = c.counters.check.ofSearch := by
  cases hlevels : s.lattice.levelsOf id with
  | error failure =>
    rw [Checker.check_unknown hlevels] at h
    cases h
  | ok levels =>
    have hcounted := Checker.ofSearch_check hlevels c false objective
    rwa [h] at hcounted

theorem tallies_assureChecked (id : Nat) : Tallies (assureChecked id) := by
  intro x _ y h
  rcases assureChecked_ok h with ⟨-, rfl⟩ | ⟨e, checker, space, hcheck, rfl⟩
  · rfl
  · have hcounted : checker.counters.checks = x.checker.counters.checks + 1 :=
      congrArg Counters.checks (ofSearch_of_check hcheck)
    unfold checks
    dsimp only
    omega

theorem tallies_searching : Searching (Tallies ·) where
  toCompositional := tallies_compositional
  visited _ := tallies_onSpace _
  mark _ _ _ := tallies_onSpace _
  bound _ _ := tallies_onSpace _
  assureChecked := tallies_assureChecked
  count f hf x _ y h := by
    cases h
    rcases hf with rfl | rfl <;> rfl
  track id x _ y h := by
    cases h
    dsimp only
    rw [Progress.track_eq]
    rfl
  finish proved x _ y h := by
    cases h
    rfl

theorem stable_stepLimit (limit : Option Nat) : Stable fun x => x.progress.stepLimit = limit :=
  stable_progress (P := fun p => p.stepLimit = limit) (fun _ _ h => h) (fun _ _ h => h)
    fun _ _ h => h

end Exploration

theorem Progress.lt_of_proceeds {p : Progress} {limit time : Nat}
    (hlimit : p.stepLimit = some limit) (h : ¬p.mustStop time = true) : p.checks < limit := by
  rw [mustStop, hlimit, Bool.or_eq_true, not_or] at h
  simpa using h.1

theorem PrivateWalk.length_unsettled_le (id : Nat) (x : Exploration) :
    (unsettled id x).length ≤ 1 := by
  unfold unsettled
  split_ifs
  · exact Nat.zero_le 1
  · exact le_rfl

theorem PrivateWalk.eq_of_mem_unsettled {id v : Nat} {x : Exploration}
    (h : v ∈ unsettled id x) : v = id := by
  unfold unsettled at h
  split_ifs at h
  · cases h
  · exact List.mem_singleton.mp h

/-! ## Best-first search -/

namespace BestFirst

def checkedIn (monotone : Bool) (e : Entry) (x : Exploration) : List Nat :=
  match verdict monotone x e with
  | .drop | .pass => []
  | .check => unsettled e.id x

def checkedBy (clock : Nat → Nat) (monotone : Bool) :
    Nat → Nat → List Entry → Exploration → List Nat
  | 0, _, _, _ => []
  | _ + 1, _, [], _ => []
  | visits + 1, turn, e :: queue, x =>
    if x.progress.mustStop (clock turn) then []
    else
      let here := checkedIn monotone e x
      match run (visit monotone e queue) x with
      | (.error _, _) => here
      | (.ok last, y) => here ++ checkedBy clock monotone visits (turn + 1) last y

def checkedFromBottom (clock : Nat → Nat) (x : Exploration) : List Nat :=
  match run (enqueue x.space.lattice.bottom []) x with
  | (.error _, _) => []
  | (.ok queue, y) =>
    checkedBy clock x.checker.metric.isMonotone x.space.lattice.size 0 queue y

section
variable {id : Nat} {queue last : List Entry} {x y : Exploration} {l : Lattice}

theorem Waiting.enqueue (h : Waiting l queue) (hid : id < l.size)
    (hrun : run (enqueue id queue) x = (.ok last, y)) : Waiting l last := by
  obtain ⟨_, z, -, hrun⟩ := run_bind_ok.mp hrun
  rw [run_get_bind] at hrun
  obtain ⟨levels, _, -, hrun⟩ := run_bind_ok.mp hrun
  obtain ⟨bound, _, -, hrun⟩ := run_bind_ok.mp hrun
  cases bound with
  | none =>
    cases hrun
    exact h.insert hid
  | some bound =>
    obtain ⟨_, _, -, hrun⟩ := run_bind_ok.mp hrun
    cases hrun
    exact h.insert hid

theorem Waiting.enqueueNew {ids : List Nat} (h : Waiting l queue)
    (hids : ∀ id ∈ ids, id < l.size) (hrun : run (enqueueNew ids queue) x = (.ok last, y)) :
    Waiting l last := by
  induction ids generalizing queue x with
  | nil =>
    cases hrun
    exact h
  | cons id rest ih =>
    have hrest : ∀ other ∈ rest, other < l.size := fun _ h => hids _ (List.mem_cons_of_mem _ h)
    rw [BestFirst.enqueueNew, run_get_bind] at hrun
    split_ifs at hrun
    · exact ih h hrest hrun
    · obtain ⟨next, z, hfirst, hrun⟩ := run_bind_ok.mp hrun
      exact ih (h.enqueue (hids id List.mem_cons_self) hfirst) hrest hrun

theorem Waiting.expand (h : Waiting l queue) (hl : x.space.lattice = l)
    (hrun : run (expand id queue) x = (.ok last, y)) : Waiting l last := by
  obtain ⟨_, z, hmark, hrun⟩ := run_bind_ok.mp hrun
  have hz : z.space.lattice = l := ((stable_lattice l).mark id _ (Or.inl rfl)).of_run hmark hl
  rw [run_get_bind] at hrun
  cases hids : z.space.lattice.successors id with
  | error failure =>
    rw [hids] at hrun
    cases hrun
  | ok ids =>
    rw [hids] at hrun
    refine h.enqueueNew (fun next hnext => ?_) hrun
    obtain ⟨levels, hlevels, -⟩ := map_eq_ok.mp hids
    obtain ⟨high, -, hhigh⟩ := (Lattice.mem_successors hlevels hids).mp hnext
    rw [← hz]
    exact (Lattice.levelsOf_ok hhigh).1

theorem Waiting.prune (h : Waiting l queue) (hrun : run (prune id queue) x = (.ok last, y)) :
    Waiting l last := by
  obtain ⟨_, _, -, hrun⟩ := run_bind_ok.mp hrun
  cases hrun
  exact h

theorem Waiting.visit {monotone : Bool} {e : Entry} (h : Waiting l queue)
    (hl : x.space.lattice = l) (hrun : run (visit monotone e queue) x = (.ok last, y)) :
    Waiting l last := by
  rw [BestFirst.visit, run_get_bind] at hrun
  cases hverdict : verdict monotone x e with
  | drop =>
    rw [hverdict] at hrun
    obtain ⟨_, z, -, hrun⟩ := run_bind_ok.mp hrun
    exact h.prune hrun
  | pass =>
    rw [hverdict] at hrun
    obtain ⟨_, z, hcount, hrun⟩ := run_bind_ok.mp hrun
    exact h.expand (((stable_lattice l).count _).of_run hcount hl) hrun
  | check =>
    rw [hverdict] at hrun
    obtain ⟨_, z, hcheck, hrun⟩ := run_bind_ok.mp hrun
    have hz : z.space.lattice = l := ((stable_lattice l).assureChecked e.id).of_run hcheck hl
    obtain ⟨_, w, htrack, hrun⟩ := run_bind_ok.mp hrun
    have hw : w.space.lattice = l := ((stable_lattice l).track e.id).of_run htrack hz
    rw [run_get_bind] at hrun
    split_ifs at hrun
    · exact h.prune hrun
    · exact h.expand hw hrun

theorem queueing_checks (n : Nat) : Queueing (Keeps (fun x => checks x = n) ·) where
  toCompositional := keeps_compositional
  visited _ := keeps_onSpace fun _ _ h _ => h
  mark _ _ _ := keeps_onSpace fun _ _ h _ => h
  bound _ _ := keeps_onSpace fun _ _ h _ => h

theorem checks_visit (monotone : Bool) {e : Entry} (he : e.id < x.space.lattice.size)
    (queue : List Entry) : checks (run (visit monotone e queue) x).2 =
      checks x + (checkedIn monotone e x).length := by
  have hpruned : Keeps (fun y => checks y = checks x) (count Counters.pruned) := fun _ h => h
  unfold visit checkedIn
  rw [run_get_bind]
  cases verdict monotone x e with
  | drop => exact (hpruned.bind fun _ => (queueing_checks _).prune e.id queue) x rfl
  | pass => exact (hpruned.bind fun _ => (queueing_checks _).expand e.id queue) x rfl
  | check =>
    have hchecked := checks_assureChecked he
    dsimp only
    rw [← hchecked, run_bind]
    rcases run (assureChecked e.id) x with ⟨failure | _, y⟩
    · rfl
    · have htracked : Keeps (fun z => checks z = checks y) (track e.id) := fun _ h => h
      refine (htracked.bind fun _ => keeps_get.bind fun z => ?_) y rfl
      split_ifs
      · exact (queueing_checks _).prune e.id queue
      · exact (queueing_checks _).expand e.id queue

theorem length_checkedIn_le (monotone : Bool) (e : Entry) (x : Exploration) :
    (checkedIn monotone e x).length ≤ 1 := by
  unfold checkedIn
  cases verdict monotone x e with
  | drop => exact Nat.zero_le 1
  | pass => exact Nat.zero_le 1
  | check => exact length_unsettled_le e.id x

theorem lt_size_checkedIn {monotone : Bool} {e : Entry} (he : e.id < l.size) :
    ∀ v ∈ checkedIn monotone e x, v < l.size := by
  intro v hv
  have hsame : v = e.id := by
    unfold checkedIn at hv
    split at hv
    · cases hv
    · cases hv
    · exact eq_of_mem_unsettled hv
  rwa [hsame]

theorem checks_visitAll (clock : Nat → Nat) (monotone : Bool) (visits turn : Nat)
    (hl : x.space.lattice = l) (h : Waiting l queue) :
    checks (run (visitAll clock monotone visits turn queue) x).2 =
        checks x + (checkedBy clock monotone visits turn queue x).length ∧
      ∀ v ∈ checkedBy clock monotone visits turn queue x, v < l.size := by
  induction visits generalizing turn queue x with
  | zero => exact ⟨rfl, fun _ hv => absurd hv List.not_mem_nil⟩
  | succ visits ih =>
    cases queue with
    | nil => exact ⟨rfl, fun _ hv => absurd hv List.not_mem_nil⟩
    | cons e queue =>
      have he : e.id < l.size := h e List.mem_cons_self
      have hqueue : Waiting l queue := fun other hother => h other (List.mem_cons_of_mem _ hother)
      have hvisit := checks_visit monotone (hl ▸ he) queue
      rw [visitAll, run_get_bind]
      unfold checkedBy
      split_ifs
      · exact ⟨rfl, fun _ hv => absurd hv List.not_mem_nil⟩
      · rw [run_bind]
        rcases hrun : run (visit monotone e queue) x with ⟨failure | last, y⟩ <;>
          rw [hrun] at hvisit
        · exact ⟨hvisit, lt_size_checkedIn he⟩
        · have hy : y.space.lattice = l :=
            (keeps_visit (stable_lattice l) monotone e queue).of_run hrun hl
          obtain ⟨hcounted, hknown⟩ := ih (turn + 1) hy (hqueue.visit hl hrun)
          dsimp only at hvisit ⊢
          refine ⟨?_, fun v hv => ?_⟩
          · rw [hcounted, hvisit, List.length_append, Nat.add_assoc]
          · rcases List.mem_append.mp hv with hv | hv
            · exact lt_size_checkedIn he v hv
            · exact hknown v hv

/-- A search stops in time: before each visit there is room for one more check. -/
theorem length_checkedBy_le (clock : Nat → Nat) (monotone : Bool) (visits turn : Nat)
    {limit : Nat} (hlimit : x.progress.stepLimit = some limit) (hl : x.space.lattice = l)
    (h : Waiting l queue) (hle : x.progress.checks ≤ limit) :
    (checkedBy clock monotone visits turn queue x).length + x.progress.checks ≤ limit := by
  induction visits generalizing turn queue x with
  | zero => simpa [checkedBy] using hle
  | succ visits ih =>
    cases queue with
    | nil => simpa [checkedBy] using hle
    | cons e queue =>
      have he : e.id < l.size := h e List.mem_cons_self
      have hqueue : Waiting l queue := fun other hother => h other (List.mem_cons_of_mem _ hother)
      have hone := length_checkedIn_le monotone e x
      unfold checkedBy
      split_ifs with hstop
      · simpa using hle
      · have hroom := Progress.lt_of_proceeds hlimit hstop
        have hvisit := checks_visit monotone (hl ▸ he) queue
        rcases hrun : run (visit monotone e queue) x with ⟨failure | last, y⟩ <;>
          rw [hrun] at hvisit
        · dsimp only
          omega
        · have htally := tallies_searching.visit monotone e queue x last y hrun
          dsimp only at hvisit ⊢
          have hrest := ih (turn + 1)
            ((keeps_visit (stable_stepLimit _) monotone e queue).of_run hrun hlimit)
            ((keeps_visit (stable_lattice l) monotone e queue).of_run hrun hl)
            (hqueue.visit hl hrun) (by omega)
          rw [List.length_append]
          omega

end

theorem checks_fromBottom {x : Exploration} {l : Lattice} (hl : x.space.lattice = l)
    (clock : Nat → Nat) :
    (checks (run (do
        let queue ← enqueue l.bottom []
        visitAll clock x.checker.metric.isMonotone l.size 0 queue) x).2 =
      checks x + (checkedFromBottom clock x).length ∧
      ∀ v ∈ checkedFromBottom clock x, v < l.size) ∧
    ∀ limit, x.progress.stepLimit = some limit → x.progress.checks = 0 →
      (checkedFromBottom clock x).length ≤ limit := by
  have hkept := (queueing_checks (checks x)).enqueue l.bottom [] x rfl
  unfold checkedFromBottom
  rw [hl, run_bind]
  rcases hrun : run (enqueue l.bottom []) x with ⟨failure | queue, y⟩ <;> rw [hrun] at hkept
  · exact ⟨⟨hkept, fun _ hv => nomatch hv⟩, fun limit _ _ => Nat.zero_le limit⟩
  · have hy : y.space.lattice = l := (keeps_enqueue (stable_lattice l) l.bottom []).of_run hrun hl
    have hempty : Waiting l [] := fun _ he => absurd he List.not_mem_nil
    have hwaiting : Waiting l queue := hempty.enqueue l.size_pos hrun
    refine ⟨?_, fun limit hlimit hzero => ?_⟩
    · rw [← hkept]
      exact checks_visitAll clock _ _ 0 hy hwaiting
    · have htally := tallies_searching.toQueueing.enqueue l.bottom [] x queue y hrun
      dsimp only at hkept ⊢
      have hlimit := (keeps_enqueue (stable_stepLimit _) l.bottom []).of_run hrun hlimit
      have hbound := length_checkedBy_le clock x.checker.metric.isMonotone l.size 0 hlimit hy
        hwaiting (by omega)
      omega

end BestFirst

/-! ## Private walks -/

namespace PrivateWalk

section
variable {ids : List Nat} {pivot : Nat} {pool : Pool} {x y : Exploration} {l : Lattice}

theorem sublist_checkedBy (ids : List Nat) (pool : Pool) (x : Exploration) :
    (checkedBy ids pool x).Sublist ids := by
  induction ids generalizing pool x with
  | nil => exact List.Sublist.slnil
  | cons id rest ih =>
    have hhere : (if Pool.contains pool id then [] else unsettled id x).Sublist [id] := by
      unfold unsettled
      split_ifs <;> simp
    unfold checkedBy
    rcases run (collect [id] pool) x with ⟨failure | next, y⟩
    · exact hhere.trans (List.singleton_sublist.mpr List.mem_cons_self)
    · exact hhere.append (ih next y)

/-- What is checked while a transformation is expanded is one of its predecessors, each of them
once at most. -/
theorem checkedIn_bound (pivot : Nat) (pool : Pool) (hl : x.space.lattice = l) :
    (checkedIn pivot pool x).length ≤ l.dimensions ∧ ∀ v ∈ checkedIn pivot pool x, v < l.size := by
  unfold checkedIn
  rcases hrun : run (onSpace (·.mark pivot Mark.expanded)) x with ⟨failure | _, y⟩
  · exact ⟨Nat.zero_le _, fun _ hv => absurd hv List.not_mem_nil⟩
  · have hy : y.space.lattice = l := ((stable_lattice l).mark pivot _ (Or.inl rfl)).of_run hrun hl
    dsimp only
    rw [hy]
    cases hids : l.predecessors pivot with
    | error failure => exact ⟨Nat.zero_le _, fun _ hv => absurd hv List.not_mem_nil⟩
    | ok ids =>
      have hsublist := sublist_checkedBy ids pool y
      refine ⟨hsublist.length_le.trans (Lattice.length_predecessors_le hids), fun v hv => ?_⟩
      exact (((Lattice.predecessors_ok hids).2 v).mp (hsublist.subset hv)).left

theorem checks_expand {last : Pool} (h : Scoring l x)
    (hrun : run (expand pivot pool) x = (.ok last, y)) :
    y.progress.checks = x.progress.checks + (checkedIn pivot pool x).length := by
  have hcounted := (checking_expand pivot pool h).1.counted
  have htally := tallies_searching.toListing.expand pivot pool x last y hrun
  rw [hrun] at hcounted
  dsimp only at hcounted
  omega

section
variable (clock : Nat → Nat) (epsilon : Float) (steps time : Nat)

theorem checkedIn_starts (pivot : Nat) (pool : Pool) : checkedIn pivot pool x <+:
    (journal clock epsilon (steps + 1) time pivot pool x).checked := by
  unfold journal
  rcases turn epsilon pivot pool x with ⟨ending, y⟩ | ⟨next, last, y⟩
  · exact List.prefix_refl _
  · dsimp only
    split_ifs
    · exact List.prefix_refl _
    · exact List.prefix_append _ _

/-- A walk makes no step once its limit is reached, so only its last step may exceed it. -/
theorem length_journal_le {limit : Nat} (h : Scoring l x)
    (hlimit : x.progress.stepLimit = some limit) (pivot : Nat) (pool : Pool) :
    (journal clock epsilon steps time pivot pool x).checked.length + x.progress.checks ≤
        max x.progress.checks (limit - 1) + l.dimensions ∧
      ∀ v ∈ (journal clock epsilon steps time pivot pool x).checked, v < l.size := by
  induction steps generalizing time pivot pool x with
  | zero =>
    refine ⟨?_, fun _ hv => absurd hv List.not_mem_nil⟩
    simp only [journal, List.length_nil]
    omega
  | succ steps ih =>
    obtain ⟨hdimensions, hknown⟩ := checkedIn_bound pivot pool h.lattice
    unfold journal
    rcases hturn : turn epsilon pivot pool x with ⟨ending, y⟩ | ⟨next, last, y⟩
    · exact ⟨by dsimp only; omega, hknown⟩
    · have hy : Scoring l y := by
        obtain ⟨z, source, hexpand, -, rfl⟩ := turn_drawn hturn
        have hz : Scoring l z := (keeps_expand (steady_scoring l) pivot pool).of_run hexpand h
        exact ⟨hz.lattice, (z.progress.track_objective z.space next).trans hz.objective⟩
      have hchecks : y.progress.checks =
          x.progress.checks + (checkedIn pivot pool x).length := by
        obtain ⟨z, source, hexpand, -, rfl⟩ := turn_drawn hturn
        rw [← checks_expand h hexpand]
        dsimp only
        rw [Progress.track_eq]
      have hstep := drawn_keeps (stable_stepLimit _) hlimit hturn
      dsimp only
      split_ifs with hstop
      · exact ⟨by dsimp only; omega, hknown⟩
      · have hroom := Progress.lt_of_proceeds hstep hstop
        obtain ⟨hrest, hlater⟩ := ih (time + 1) hy hstep next last
        refine ⟨?_, fun v hv => (List.mem_append.mp hv).elim (hknown v) (hlater v)⟩
        rw [List.length_append]
        omega

theorem length_journalFromTop_le {limit : Nat} (h : Scoring l x)
    (hlimit : x.progress.stepLimit = some limit) (hzero : x.progress.checks = 0) :
    (journalFromTop clock epsilon steps x).checked.length ≤ max 1 (limit - 1) + l.dimensions ∧
      ∀ v ∈ (journalFromTop clock epsilon steps x).checked, v < l.size := by
  have htop := length_unsettled_le l.top x
  have hknown : ∀ v ∈ unsettled l.top x, v < l.size :=
    fun v hv => eq_of_mem_unsettled hv ▸ l.top_lt_size
  rcases journalFromTop_cases clock epsilon steps h.lattice with
    ⟨failure, y, -, -, hjournal⟩ | ⟨y, z, hrun, hz, -, hjournal⟩ <;> rw [hjournal]
  · exact ⟨by dsimp only; omega, hknown⟩
  · have hcounted : checks (run (assureChecked l.top) x).2 =
        checks x + (unsettled l.top x).length :=
      checks_assureChecked (by rw [h.lattice]; exact l.top_lt_size)
    have htally := tallies_assureChecked l.top x () y hrun
    rw [hrun] at hcounted
    have hy : y.progress.stepLimit = some limit :=
      ((stable_stepLimit _).assureChecked l.top).of_run hrun hlimit
    have hstep : z.progress.stepLimit = some limit := by
      rw [hz, Progress.track_eq]
      exact hy
    have hchecks : z.progress.checks = y.progress.checks := by
      rw [hz, Progress.track_eq]
    obtain ⟨hrest, hlater⟩ :=
      length_journal_le clock epsilon steps 0 (hz ▸ (h.top hrun).scoring) hstep l.top []
    refine ⟨?_, fun v hv => (List.mem_append.mp hv).elim (hknown v) (hlater v)⟩
    dsimp only at hcounted ⊢
    rw [List.length_append]
    omega

end
end
end PrivateWalk

/-! ## Traversals -/

namespace Search

def checked (s : Search) (clock : Nat → Nat) (checker : Checker) (space : SolutionSpace) :
    List Nat :=
  match s.plan with
  | .bestFirst => BestFirst.checkedFromBottom clock (s.begun checker space)
  | .privateWalk _ perStep steps =>
    (journalFromTop clock perStep steps (s.begun checker space)).checked

section
variable {settings : SearchSettings} {s : Search} (hs : s.Of settings) (clock : Nat → Nat)
  (checker : Checker) (space : SolutionSpace)
include hs

/-- A search, new or used, has the limits of its settings and the objective of its plan. -/
theorem Of.progress_eq : s.progress.stepLimit = settings.stepLimit ∧
    s.progress.objective = s.plan.objective := by
  obtain ⟨entropy, t, ht, hpeers⟩ := hs.exists_peer
  rw [hpeers.stepLimit, hpeers.objective, hpeers.plan, (new_ok ht).1]
  exact ⟨rfl, rfl⟩

theorem Of.scoring {epsilon perStep : Float} {steps : Nat}
    (hplan : s.plan = .privateWalk epsilon perStep steps) :
    Scoring space.lattice (s.begun checker space) := by
  have hobjective := hs.progress_eq.2
  rw [hplan] at hobjective
  refine ⟨s.begun_lattice checker space, ?_⟩
  rw [s.begun_progress]
  exact hobjective

theorem Of.checks_ended : (s.ended clock checker space).checker.counters.checks =
    checker.counters.checks + (s.checked clock checker space).length := by
  have hbefore : checks (s.begun checker space) = checker.counters.checks := by
    rw [checks, s.begun_counters]
  rw [← hbefore]
  unfold checked
  cases hplan : s.plan with
  | bestFirst =>
    have hcounted := (BestFirst.checks_fromBottom (s.begun_lattice checker space) clock).1.1
    have hrun := s.run_traversal clock checker space
    rw [traversal, hplan] at hrun
    dsimp only at hrun
    rw [s.begun_metric, hrun] at hcounted
    exact hcounted
  | privateWalk epsilon perStep steps =>
    rw [(ended_course hplan clock checker space).2]
    exact (checked_journalFromTop clock perStep steps (hs.scoring checker space hplan)).counted

end

/-- Every check of a traversal is one of a transformation of the lattice and is counted. Under a
step limit a best-first search makes no more checks than the limit says. A private walk may exceed
it in its last step, by what that lists, and even with a limit of one checks the top before its
first step. -/
theorem checked_bounded {settings : SearchSettings} {limit : Nat}
    (hlimit : settings.stepLimit = some limit) {s : Search} (hs : s.Of settings)
    (clock : Nat → Nat) (checker : Checker) (space : SolutionSpace) :
    (s.ended clock checker space).checker.counters.checks =
        checker.counters.checks + (s.checked clock checker space).length ∧
      (∀ id ∈ s.checked clock checker space, id < space.lattice.size) ∧
      (s.checked clock checker space).length ≤ match settings.method with
        | .bestFirst => limit
        | .privateWalk => max 1 (limit - 1) + space.lattice.dimensions := by
  refine ⟨hs.checks_ended clock checker space, ?_⟩
  have hstep : (s.begun checker space).progress.stepLimit = some limit := by
    rw [s.begun_progress, ← hlimit]
    exact hs.progress_eq.1
  have hzero : (s.begun checker space).progress.checks = 0 := by
    rw [s.begun_progress]
    rfl
  unfold checked
  cases hmethod : settings.method with
  | bestFirst =>
    obtain ⟨⟨-, hknown⟩, hbound⟩ :=
      BestFirst.checks_fromBottom (s.begun_lattice checker space) clock
    rw [hs.plan_bestFirst hmethod]
    exact ⟨hknown, hbound limit hstep hzero⟩
  | privateWalk =>
    obtain ⟨perStep, hplan⟩ := hs.plan_privateWalk hmethod
    rw [hplan]
    exact (length_journalFromTop_le clock perStep _ (hs.scoring checker space hplan) hstep
      hzero).symm

end Search

namespace Sample

/-- The settings of a walk that may check one transformation. -/
def hurrying : SearchSettings := { walking with stepLimit := some 1 }

def hurried : Search := { walk with progress := .initial hurrying .score }

theorem hurried_eq : Search.ofSettings hurrying (.ofSeed 0) = .ok hurried := by
  have hbudget : budgetPerStep hurrying.epsilon hurrying.expansionLimit = .ok perStep := perStep_eq
  unfold Search.ofSettings
  rw [hbudget]
  rfl

/-- The hurried walk checks the bottom before it asks for its limit, whatever it draws. -/
theorem length_checked_hurried : 2 ≤ (hurried.checked surroundings.clock (checker keeping)
    (.ofLattice lattice)).length := by
  have hchecked : (run (assureChecked 1) (hurried.begun (checker keeping)
      (.ofLattice lattice))).1.toOption = some () := by decide +kernel
  have htop : (unsettled 1 (hurried.begun (checker keeping)
      (.ofLattice lattice))).length = 1 := by decide +kernel
  have hbottom : (let y := (run (assureChecked 1) (hurried.begun (checker keeping)
      (.ofLattice lattice))).2
    checkedIn 1 [] { y with progress := y.progress.track y.space 1 }).length = 1 := by
      decide +kernel
  have hlattice : lattice.top = 1 := by decide
  show 2 ≤ (journalFromTop surroundings.clock perStep 5 (hurried.begun (checker keeping)
    (.ofLattice lattice))).checked.length
  rcases journalFromTop_cases surroundings.clock perStep 5 (x := hurried.begun (checker keeping)
      (.ofLattice lattice)) (l := lattice) rfl with
    ⟨failure, y, hrun, -⟩ | ⟨y, z, hrun, hz, -, hjournal⟩ <;> rw [hlattice] at hrun
  · rw [hrun] at hchecked
    cases hchecked
  · have hstep := (checkedIn_starts surroundings.clock perStep 4 0 (x := z) 1 []).length_le
    rw [hrun] at hbottom
    rw [hjournal, List.length_append, hlattice, htop]
    rw [hz, hlattice] at hstep ⊢
    dsimp only [Nat.reduceAdd] at hbottom hstep
    omega

end Sample

namespace Search

open Sample in
/-- The hurried walk of the sample checks two transformations at most. -/
theorem checked_bounded_sample :
    (hurried.ended surroundings.clock (checker keeping)
        (.ofLattice lattice)).checker.counters.checks =
      (checker keeping).counters.checks +
        (hurried.checked surroundings.clock (checker keeping) (.ofLattice lattice)).length ∧
      (hurried.checked surroundings.clock (checker keeping) (.ofLattice lattice)).length ≤ 2 := by
  have hmethod : hurrying.method = .privateWalk := rfl
  have hdimensions : (SolutionSpace.ofLattice lattice).lattice.dimensions = 1 := by decide
  obtain ⟨hcounted, -, hbound⟩ := checked_bounded rfl (.new hurried_eq)
    surroundings.clock (checker keeping) (.ofLattice lattice)
  rw [hmethod, hdimensions] at hbound
  exact ⟨hcounted, hbound⟩

open Sample in
/-- A walk may check more transformations than its step limit says. -/
theorem checked_beyond_limit : ∃ (s : Search) (settings : SearchSettings) (limit : Nat),
    s.Of settings ∧ settings.stepLimit = some limit ∧ 1 ≤ limit ∧
      (checker keeping).counters.checks + limit < (s.ended surroundings.clock (checker keeping)
        (.ofLattice lattice)).checker.counters.checks := by
  have hs : hurried.Of hurrying := .new hurried_eq
  refine ⟨hurried, hurrying, 1, hs, rfl, le_rfl, ?_⟩
  rw [hs.checks_ended]
  exact Nat.add_lt_add_left length_checked_hurried _

end Search

end Recoding
