import Recoding.Proofs.Search.Knowledge
import Recoding.Proofs.Search.Rules

/-!
# Runs of a search

A search is a composition of a few changes to its state. What each of them keeps, every search
keeps, whether or not it fails.
-/

namespace Recoding

/-- Comparing a transformation with the optimum changes nothing else. -/
theorem Progress.track_eq (p : Progress) (s : SolutionSpace) (id : Nat) :
    p.track s id = { p with optimum := (p.track s id).optimum } := by
  unfold track
  repeat' split
  all_goals rfl

/-- Comparing a checked transformation with the optimum keeps the optimum, unless the
transformation is anonymous and better. -/
theorem Progress.track_node {p : Progress} {s : SolutionSpace} {v : Nat} {candidate : Node}
    (hcandidate : s.node? v = some candidate) (hchecked : s.has v Mark.checked = true)
    (hnodes : ∀ o ∈ p.optimum, ∃ current, s.node? o = some current) :
    (p.track s v = p ∧ (s.has v Mark.anonymous = true → ∃ o ∈ p.optimum, ∃ current,
      s.node? o = some current ∧ isBetter p.objective candidate current = false)) ∨
    (p.track s v = { p with optimum := some v } ∧ s.has v Mark.anonymous = true ∧
      ∀ o ∈ p.optimum, ∀ current, s.node? o = some current →
        isBetter p.objective candidate current = true) := by
  cases hanonymous : s.has v Mark.anonymous with
  | false =>
    have htrack : p.track s v = p := by simp [track, hcandidate, hchecked, hanonymous]
    exact Or.inl ⟨htrack, nofun⟩
  | true =>
    cases hbest : p.optimum with
    | none =>
      have htrack : p.track s v = { p with optimum := some v } := by
        simp [track, hcandidate, hchecked, hanonymous, hbest]
      exact Or.inr ⟨htrack, rfl, nofun⟩
    | some o =>
      obtain ⟨current, hcurrent⟩ := hnodes o hbest
      have htrack : p.track s v = if isBetter p.objective candidate current then
          { p with optimum := some v } else p := by
        simp [track, hcandidate, hchecked, hanonymous, hbest, hcurrent]
      rw [htrack]
      split_ifs with hbetter
      · refine Or.inr ⟨rfl, rfl, ?_⟩
        rintro _ ⟨⟩ node hnode
        rwa [Option.some.inj (hnode.symm.trans hcurrent)]
      · exact Or.inl ⟨rfl, fun _ => ⟨o, rfl, current, hcurrent, Bool.eq_false_iff.mpr hbetter⟩⟩

namespace Exploration

section
variable {α β : Type}

@[simp] theorem run_pure (a : α) (x : Exploration) : run (pure a) x = (.ok a, x) := rfl

@[simp] theorem run_throw (failure : Failure) (x : Exploration) :
    run (throw failure : Exploring α) x = (.error failure, x) := rfl

@[simp] theorem run_get (x : Exploration) : run get x = (.ok x, x) := rfl

@[simp] theorem run_set (x y : Exploration) : run (set y) x = (.ok (), y) := rfl

@[simp] theorem run_modify (f : Exploration → Exploration) (x : Exploration) :
    run (modify f) x = (.ok (), f x) := rfl

theorem run_bind (m : Exploring α) (f : α → Exploring β) (x : Exploration) :
    run (m >>= f) x = match run m x with
      | (.ok a, y) => run (f a) y
      | (.error failure, y) => (.error failure, y) := by
  have hbind : run (m >>= f) x = StateT.run (ExceptT.bindCont f (run m x).1) (run m x).2 := rfl
  rw [hbind]
  rcases run m x with ⟨_ | a, y⟩ <;> rfl

theorem run_bind_ok {m : Exploring α} {f : α → Exploring β} {x z : Exploration} {b : β} :
    run (m >>= f) x = (.ok b, z) ↔
      ∃ a y, run m x = (.ok a, y) ∧ run (f a) y = (.ok b, z) := by
  rw [run_bind]
  rcases run m x with ⟨failure | a, y⟩
  · simp
  · simp

@[simp] theorem run_get_bind (f : Exploration → Exploring β) (x : Exploration) :
    run (get >>= f) x = run (f x) x := rfl

end

theorem run_onSpace_eq (f : SolutionSpace → Except Failure SolutionSpace) (x : Exploration) :
    run (onSpace f) x = match f x.space with
      | .error failure => (.error failure, x)
      | .ok space => (.ok (), { x with space }) := by
  rw [onSpace, run_get_bind]
  cases f x.space <;> rfl

/-- A check that fails leaves its checker and its space behind, but is no check of the progress. -/
theorem run_assureChecked (id : Nat) (x : Exploration) : run (assureChecked id) x =
    if x.progress.isSettled x.space id then (.ok (), x)
    else match x.checker.check x.space id false x.progress.objective with
      | (.error failure, checker, space) => (.error failure, { x with checker, space })
      | (.ok _, checker, space) => (.ok (), { x with
          checker, space, progress := { x.progress with checks := x.progress.checks + 1 } }) := by
  unfold assureChecked
  rw [run_get_bind]
  split_ifs
  · rfl
  · rcases x.checker.check x.space id false x.progress.objective with
      ⟨failure | e, checker, space⟩ <;> rfl

/-! ## What every part of a search keeps -/

def Keeps {α : Type} (P : Exploration → Prop) (m : Exploring α) : Prop :=
  ∀ x, P x → P (run m x).2

section
variable {α β : Type} {P : Exploration → Prop}

theorem Keeps.of_run {m : Exploring α} (hm : Keeps P m) {x y : Exploration}
    {outcome : Except Failure α} (h : run m x = (outcome, y)) (hx : P x) : P y := by
  have hy := hm x hx
  rwa [h] at hy

theorem keeps_pure (a : α) : Keeps P (pure a : Exploring α) := fun _ h => h

theorem keeps_throw (failure : Failure) : Keeps P (throw failure : Exploring α) := fun _ h => h

theorem keeps_get : Keeps P get := fun _ h => h

theorem Keeps.bind {m : Exploring α} {f : α → Exploring β} (hm : Keeps P m)
    (hf : ∀ a, Keeps P (f a)) : Keeps P (m >>= f) := by
  intro x hx
  have hy := hm x hx
  rw [run_bind]
  rcases hrun : run m x with ⟨_ | a, y⟩ <;> rw [hrun] at hy
  · exact hy
  · exact hf a y hy

theorem keeps_compositional : Compositional (Keeps P ·) where
  pure := keeps_pure
  throw := keeps_throw
  bind := Keeps.bind
  read hf _ := keeps_get.bind hf

theorem keeps_onSpace {f : SolutionSpace → Except Failure SolutionSpace}
    (h : ∀ x space, P x → f x.space = .ok space → P { x with space }) :
    Keeps P (onSpace f) := by
  intro x hx
  rw [run_onSpace_eq]
  cases hf : f x.space with
  | error failure => exact hx
  | ok space => exact h x space hx hf

/-- Whether or not a check succeeds, it changes the checker, the space and the number of checks. -/
theorem keeps_check {id : Nat} (hcheck : ∀ x, P x → P { x with
      checker := (x.checker.check x.space id false x.progress.objective).2.1
      space := (x.checker.check x.space id false x.progress.objective).2.2 })
    (hchecks : ∀ x checks, P x → P { x with progress := { x.progress with checks } }) :
    Keeps P (assureChecked id) := by
  intro x h
  have hchecked := hcheck x h
  rw [run_assureChecked]
  split_ifs
  · exact h
  · rcases hresult : x.checker.check x.space id false x.progress.objective with
      ⟨_ | e, checker, space⟩ <;> rw [hresult] at hchecked
    · exact hchecked
    · exact hchecks _ _ hchecked

end

theorem assureChecked_ok {id : Nat} {x y : Exploration}
    (h : run (assureChecked id) x = (.ok (), y)) :
    x.progress.isSettled x.space id = true ∧ y = x ∨
      ∃ e checker space, x.checker.check x.space id false x.progress.objective =
        (.ok e, checker, space) ∧ y = { x with
          checker, space, progress := { x.progress with checks := x.progress.checks + 1 } } := by
  rw [run_assureChecked] at h
  split_ifs at h with hsettled
  · cases h
    exact Or.inl ⟨hsettled, rfl⟩
  · rcases hresult : x.checker.check x.space id false x.progress.objective with
      ⟨failure | e, checker, space⟩ <;> rw [hresult] at h
    · cases h
    · cases h
      exact Or.inr ⟨e, checker, space, rfl, rfl⟩

/-- A property that listing neighbours and checking them keeps. -/
structure Steady (P : Exploration → Prop) : Prop where
  visited : ∀ id, Keeps P (onSpace (·.mark id Mark.visited))
  mark : ∀ id new, new = Mark.expanded ∨ new = Mark.successorsPruned →
    Keeps P (onSpace (·.mark id new))
  assureChecked : ∀ id, Keeps P (assureChecked id)

/-- A property that every part of a search keeps. -/
structure Stable (P : Exploration → Prop) : Prop extends Steady P where
  bound : ∀ id lowerBound, Keeps P (onSpace (·.bound id lowerBound))
  count : ∀ f, Keeps P (count f)
  track : ∀ id, Keeps P (track id)
  source : ∀ x source, P x → P { x with source }
  finish : ∀ proved, Keeps P (finish proved)

/-- What marks, bounds and checks keep of the space, every part of a search keeps. -/
theorem stable_space {P : SolutionSpace → Prop}
    (hmark : ∀ {s after : SolutionSpace} {id new : Nat}, P s →
      new = Mark.visited ∨ new = Mark.expanded ∨ new = Mark.successorsPruned →
      s.mark id new = .ok after → P after)
    (hbound : ∀ {s after : SolutionSpace} {id : Nat} {lowerBound : Loss}, P s →
      s.bound id lowerBound = .ok after → P after)
    (hcheck : ∀ (c : Checker) {s : SolutionSpace} (id : Nat) (objective : Objective), P s →
      P (c.check s id false objective).2.2) : Stable fun x => P x.space where
  visited _ := keeps_onSpace fun _ _ h => hmark h (Or.inl rfl)
  mark _ _ hnew := keeps_onSpace fun _ _ h => hmark h (Or.inr hnew)
  assureChecked id := keeps_check (fun x => hcheck x.checker id x.progress.objective) fun _ _ h => h
  bound _ _ := keeps_onSpace fun _ _ h => hbound h
  count _ _ h := h
  track _ _ h := h
  source _ _ h := h
  finish _ _ h := h

/-- What does not depend on the phase, the optimum and the number of checks, every part of a
search keeps of the progress. -/
theorem stable_progress {P : Progress → Prop} (hphase : ∀ p phase, P p → P { p with phase })
    (hoptimum : ∀ p optimum, P p → P { p with optimum })
    (hchecks : ∀ p checks, P p → P { p with checks }) : Stable fun x => P x.progress where
  visited _ := keeps_onSpace fun _ _ h _ => h
  mark _ _ _ := keeps_onSpace fun _ _ h _ => h
  assureChecked _ := keeps_check (fun _ h => h) fun x checks h => hchecks x.progress checks h
  bound _ _ := keeps_onSpace fun _ _ h _ => h
  count _ _ h := h
  track id x h := by
    show P (x.progress.track x.space id)
    rw [Progress.track_eq]
    exact hoptimum _ _ h
  source _ _ h := h
  finish _ x h := hphase x.progress _ h

end Exploration

open Exploration

section
variable {P : Exploration → Prop}

theorem Exploration.Steady.listing (hP : Steady P) : Listing (Keeps P ·) where
  toCompositional := keeps_compositional
  visited := hP.visited
  mark := hP.mark
  assureChecked := hP.assureChecked

theorem Exploration.Stable.searching (hP : Stable P) : Searching (Keeps P ·) where
  toListing := hP.listing
  bound := hP.bound
  count f _ := hP.count f
  track := hP.track
  finish := hP.finish

/-! ## Listing candidates -/

namespace PrivateWalk

theorem keeps_collect (hP : Steady P) (ids : List Nat) (pool : Pool) :
    Keeps P (collect ids pool) :=
  hP.listing.collect ids pool

theorem keeps_expand (hP : Steady P) (pivot : Nat) (pool : Pool) :
    Keeps P (expand pivot pool) :=
  hP.listing.expand pivot pool

theorem run_draw (epsilon : Float) (pool : Pool) (x : Exploration) :
    run (draw epsilon pool) x = (.ok (Mechanism.select ⟨epsilon, x.source⟩ pool).1,
      { x with source := (Mechanism.select ⟨epsilon, x.source⟩ pool).2.source }) := rfl

theorem keeps_draw (hP : Stable P) (epsilon : Float) (pool : Pool) :
    Keeps P (draw epsilon pool) :=
  fun x h => hP.source x _ h

end PrivateWalk

/-! ## Best-first search -/

namespace BestFirst

section
variable (hP : Stable P)
include hP

theorem keeps_enqueue (id : Nat) (queue : List Entry) : Keeps P (enqueue id queue) :=
  hP.searching.enqueue id queue

theorem keeps_expand (id : Nat) (queue : List Entry) : Keeps P (expand id queue) :=
  hP.searching.toQueueing.expand id queue

theorem keeps_prune (id : Nat) (queue : List Entry) : Keeps P (prune id queue) :=
  hP.searching.prune id queue

theorem keeps_visit (monotone : Bool) (e : Entry) (queue : List Entry) :
    Keeps P (visit monotone e queue) :=
  hP.searching.visit monotone e queue

theorem keeps_visitAll (clock : Nat → Nat) (monotone : Bool) (visits turn : Nat)
    (queue : List Entry) : Keeps P (visitAll clock monotone visits turn queue) :=
  hP.searching.visitAll clock monotone visits turn queue

end

end BestFirst
end

/-! ## Traversals -/

/-- The state in which a traversal begins, once predictions are turned on or off. -/
def Search.begun (s : Search) (checker : Checker) (space : SolutionSpace) : Exploration :=
  match s.plan with
  | .bestFirst => ⟨s.progress.start, checker,
      space.setPredictable (checker.criteria.all Criterion.isMonotone), s.source⟩
  | .privateWalk _ _ _ => ⟨s.progress.start, checker.setRetention .all,
      space.setPredictable false, s.source⟩

def Search.ended (s : Search) (clock : Nat → Nat) (checker : Checker) (space : SolutionSpace) :
    Exploration :=
  let result := s.traverse clock checker space
  ⟨result.2.1.progress, result.2.2.1, result.2.2.2, result.2.1.source⟩

section
variable (s : Search) (checker : Checker) (space : SolutionSpace)

@[simp] theorem Search.begun_progress : (s.begun checker space).progress = s.progress.start := by
  unfold begun
  cases s.plan <;> rfl

@[simp] theorem Search.begun_lattice : (s.begun checker space).space.lattice = space.lattice := by
  unfold begun
  cases s.plan <;> rfl

@[simp] theorem Search.begun_counters :
    (s.begun checker space).checker.counters = checker.counters := by
  unfold begun
  cases s.plan <;> rfl

@[simp] theorem Search.begun_metric :
    (s.begun checker space).checker.metric = checker.metric := by
  unfold begun
  cases s.plan <;> rfl

end

theorem Search.run_traversal (s : Search) (clock : Nat → Nat) (checker : Checker)
    (space : SolutionSpace) :
    run (s.traversal clock checker.metric space.lattice) (s.begun checker space) =
      ((s.traverse clock checker space).1, s.ended clock checker space) := by
  unfold traversal begun ended traverse
  cases s.plan <;> rfl

theorem Search.keeps_traversal {P : Exploration → Prop} (hP : Stable P) (s : Search)
    (clock : Nat → Nat) (metric : Metric) (l : Lattice) :
    Keeps P (s.traversal clock metric l) :=
  hP.searching.traversal (fun _ => PrivateWalk.keeps_draw hP) clock metric l

theorem Search.keeps_ended {P : Exploration → Prop} (hP : Stable P) (s : Search)
    (clock : Nat → Nat) {checker : Checker} {space : SolutionSpace}
    (h : P (s.begun checker space)) : P (s.ended clock checker space) :=
  (s.keeps_traversal hP clock checker.metric space.lattice).of_run
    (s.run_traversal clock checker space) h

end Recoding
