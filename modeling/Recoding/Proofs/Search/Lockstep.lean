import Recoding.Proofs.Search.Achieved
import Recoding.Proofs.Search.Spending

/-!
# Searches in lockstep

Two searches that are in the same state, but for their checkers, take the same steps as long as
their checkers answer alike. How checkers may differ is a relation that checks keep; every part
of a search then has the same outcome on both sides, and so has every traversal. The numbers of
distributions have to fit into words, on both sides or, where the second side follows from the
first, on the first side alone.
-/

namespace Recoding

open Exploration

/-- A relation between checkers that give the same answers on a lattice, and stay related, as long
as the first one fits, and the second one as well if `both` does hold. -/
structure Checker.Bisimulation (R : Checker → Checker → Prop) (both : Prop) (l : Lattice) :
    Prop where
  metric : ∀ {a b}, R a b → a.metric = b.metric
  criteria : ∀ {a b}, R a b → a.criteria = b.criteria
  retention : ∀ {a b}, R a b → ∀ retention, R (a.setRetention retention) (b.setRetention retention)
  count : ∀ {a b}, R a b → ∀ f, f = Counters.pruned ∨ f = Counters.draw →
    R (a.count f) (b.count f)
  check : ∀ {a b}, R a b → ∀ {space : SolutionSpace}, space.lattice = l → ∀ id objective,
    (a.check space id false objective).2.1.history.dictionary.size < 2 ^ 32 →
    (both → (b.check space id false objective).2.1.history.dictionary.size < 2 ^ 32) →
    (a.check space id false objective).1.map (fun _ => ()) =
        (b.check space id false objective).1.map (fun _ => ()) ∧
      (a.check space id false objective).2.2 = (b.check space id false objective).2.2 ∧
      R (a.check space id false objective).2.1 (b.check space id false objective).2.1

namespace Exploration

/-- Two searches in the same state, but for their checkers and perhaps their randomness. -/
structure Abreast (R : Checker → Checker → Prop) (S : RandomSource → RandomSource → Prop)
    (l : Lattice) (x y : Exploration) : Prop where
  progress : x.progress = y.progress
  space : x.space = y.space
  lattice : x.space.lattice = l
  checker : R x.checker y.checker
  source : S x.source y.source

/-- A part of a search that has the same outcome from states that are abreast, and leaves them
abreast, if everything fits in the end. -/
structure Lockstep {α : Type} (R : Checker → Checker → Prop)
    (S : RandomSource → RandomSource → Prop) (both : Prop) (l : Lattice) (m : Exploring α) :
    Prop where
  grows : ∀ x, (run m x).2.Fits → x.Fits
  same : ∀ {x y}, Abreast R S l x y → (run m x).2.Fits → (both → (run m y).2.Fits) →
    (run m x).1 = (run m y).1 ∧ Abreast R S l (run m x).2 (run m y).2

section
variable {α β : Type} {R : Checker → Checker → Prop} {S : RandomSource → RandomSource → Prop}
  {both : Prop} {l : Lattice}

/-! ## Compositions -/

theorem lockstep_pure (a : α) : Lockstep R S both l (pure a) := ⟨fun _ h => h, fun h _ _ => ⟨rfl, h⟩⟩

theorem lockstep_throw (failure : Failure) : Lockstep R S both l (throw failure : Exploring α) :=
  ⟨fun _ h => h, fun h _ _ => ⟨rfl, h⟩⟩

theorem Lockstep.bind {m : Exploring α} {f : α → Exploring β} (hm : Lockstep R S both l m)
    (hf : ∀ a, Lockstep R S both l (f a)) : Lockstep R S both l (m >>= f) := by
  have hgrows : ∀ x, (run (m >>= f) x).2.Fits → (run m x).2.Fits := by
    intro x hfits
    rw [run_bind] at hfits
    rcases hrun : run m x with ⟨failure | a, y⟩ <;> rw [hrun] at hfits
    · exact hfits
    · exact (hf a).grows y hfits
  refine ⟨fun x hfits => hm.grows x (hgrows x hfits), fun {x y} h hx hy => ?_⟩
  obtain ⟨hsame, habreast⟩ := hm.same h (hgrows x hx) fun hboth => hgrows y (hy hboth)
  rw [run_bind] at hx hy ⊢
  rw [run_bind]
  rcases hrun : run m x with ⟨failure | a, x'⟩ <;>
    rcases hrun' : run m y with ⟨failure' | b, y'⟩ <;>
    rw [hrun] at hx hsame habreast <;> rw [hrun'] at hy hsame habreast <;> cases hsame
  · exact ⟨rfl, habreast⟩
  · exact (hf a).same habreast hx hy

/-! ## Single steps -/

theorem lockstep_onProgress (f : Progress → Progress) : Lockstep R S both l (onProgress f) where
  grows _ h := h
  same h _ _ := ⟨rfl, congrArg f h.progress, h.space, h.lattice, h.checker, h.source⟩

theorem lockstep_track (id : Nat) : Lockstep R S both l (track id) where
  grows _ h := h
  same {x y} h _ _ := by
    have hprogress : x.progress.track x.space id = y.progress.track y.space id := by
      rw [h.progress, h.space]
    exact ⟨rfl, hprogress, h.space, h.lattice, h.checker, h.source⟩

theorem lockstep_finish (proved : Bool) : Lockstep R S both l (finish proved) :=
  (lockstep_onProgress _).bind fun _ => lockstep_pure proved

theorem lockstep_onSpace {f : SolutionSpace → Except Failure SolutionSpace}
    (hf : ∀ {s after}, f s = .ok after → after.lattice = s.lattice) :
    Lockstep R S both l (onSpace f) := by
  constructor
  · intro x hfits
    rw [run_onSpace_eq] at hfits
    cases hspace : f x.space <;> rw [hspace] at hfits <;> exact hfits
  · intro x y h _ _
    rw [run_onSpace_eq, run_onSpace_eq, ← h.space]
    cases hspace : f x.space with
    | error failure => exact ⟨rfl, h⟩
    | ok space =>
      exact ⟨rfl, h.progress, rfl, (hf hspace).trans h.lattice, h.checker, h.source⟩

theorem lockstep_mark (id marks : Nat) : Lockstep R S both l (onSpace (·.mark id marks)) :=
  lockstep_onSpace fun h => (SolutionSpace.modify_frame h).1

theorem lockstep_bound (id : Nat) (lowerBound : Loss) :
    Lockstep R S both l (onSpace (·.bound id lowerBound)) :=
  lockstep_onSpace fun h => (SolutionSpace.modify_frame h).1

section
variable (hR : Checker.Bisimulation R both l)
include hR

theorem lockstep_count {f : Counters → Counters} (hf : f = Counters.pruned ∨ f = Counters.draw) :
    Lockstep R S both l (count f) where
  grows _ h := h
  same h _ _ := ⟨rfl, h.progress, h.space, h.lattice, hR.count h.checker f hf, h.source⟩

theorem lockstep_assureChecked (id : Nat) : Lockstep R S both l (assureChecked id) := by
  refine ⟨fun x => (stable_fits x).assureChecked id x fun h => h, fun {x y} h hx hy => ?_⟩
  rw [run_assureChecked] at hx hy ⊢
  rw [run_assureChecked]
  rw [← h.progress, ← h.space] at hy ⊢
  split_ifs at hx hy ⊢ with hsettled
  · exact ⟨rfl, h⟩
  · have hcheck := hR.check h.checker h.lattice id x.progress.objective
    have hframe := SolutionSpace.check_frame x.checker x.space id false x.progress.objective
    rcases hchecked : x.checker.check x.space id false x.progress.objective with
      ⟨failure | e, checker, space⟩ <;>
      rcases hchecked' : y.checker.check x.space id false x.progress.objective with
        ⟨failure' | e', checker', space'⟩ <;>
      rw [hchecked] at hx hcheck hframe <;> rw [hchecked'] at hy hcheck <;>
      obtain ⟨houtcome, hspace, hchecker⟩ := hcheck hx hy <;> cases houtcome
    · have habreast : Abreast R S l { x with checker, space }
          ⟨x.progress, checker', space', y.source⟩ :=
        ⟨rfl, hspace, hframe.1.trans h.lattice, hchecker, h.source⟩
      exact ⟨rfl, habreast⟩
    · have hchecks : Lockstep R S both l
          (onProgress fun p : Progress => { p with checks := p.checks + 1 }) := lockstep_onProgress _
      have habreast : Abreast R S l { x with checker, space }
          ⟨x.progress, checker', space', y.source⟩ :=
        ⟨rfl, hspace, hframe.1.trans h.lattice, hchecker, h.source⟩
      exact hchecks.same habreast hx hy

theorem lockstep_compositional : Compositional (Lockstep R S both l ·) where
  pure := lockstep_pure
  throw := lockstep_throw
  bind := Lockstep.bind
  read {β f} hf hsame := by
    refine ⟨fun x hfits => (hf x).grows x hfits, fun {x y} h hx hy => ?_⟩
    have hread : f x = f y :=
      hsame x y (.of_eq h.progress h.space (hR.metric h.checker))
    rw [run_get_bind] at hx hy ⊢
    rw [run_get_bind]
    rw [hread] at hx ⊢
    exact (hf y).same h hx hy

theorem lockstep_searching : Searching (Lockstep R S both l ·) where
  toCompositional := lockstep_compositional hR
  visited id := lockstep_mark id _
  mark id new _ := lockstep_mark id new
  bound := lockstep_bound
  assureChecked := lockstep_assureChecked hR
  count _ hf := lockstep_count hR hf
  track := lockstep_track
  finish := lockstep_finish

end

theorem lockstep_draw (hS : ∀ u v, S u v ↔ u = v) (epsilon : Float) (pool : PrivateWalk.Pool) :
    Lockstep R S both l (PrivateWalk.draw epsilon pool) where
  grows _ h := h
  same {x y} h _ _ := by
    rw [PrivateWalk.run_draw, PrivateWalk.run_draw, (hS _ _).mp h.source]
    exact ⟨rfl, h.progress, h.space, h.lattice, h.checker, (hS _ _).mpr rfl⟩

end
end Exploration

open Exploration

/-! ## Searches without a time limit -/

theorem stable_untimed : Stable fun x => x.progress.timeLimit = none :=
  stable_progress (P := fun p => p.timeLimit = none) (fun _ _ h => h) (fun _ _ h => h)
    fun _ _ h => h

theorem Progress.mustStop_untimed {p : Progress} (h : p.timeLimit = none) (time other : Nat) :
    p.mustStop time = p.mustStop other := by
  simp [mustStop, h]

theorem run_bind_congr {α β : Type} {m : Exploring α} {f g : α → Exploring β} {x : Exploration}
    (h : ∀ a y, run m x = (.ok a, y) → run (f a) y = run (g a) y) :
    run (m >>= f) x = run (m >>= g) x := by
  rw [run_bind, run_bind]
  rcases hrun : run m x with ⟨failure | a, y⟩
  · rfl
  · exact h a y hrun

/-- Without a time limit it does not matter what the clock shows. -/
theorem BestFirst.visitAll_untimed {x : Exploration} (h : x.progress.timeLimit = none)
    (clock other : Nat → Nat) (monotone : Bool) (visits turn : Nat) (queue : List Entry) :
    run (visitAll clock monotone visits turn queue) x =
      run (visitAll other monotone visits turn queue) x := by
  induction visits generalizing turn queue x with
  | zero => rfl
  | succ visits ih =>
    cases queue with
    | nil => rfl
    | cons e queue =>
      rw [visitAll, visitAll, run_get_bind, run_get_bind,
        Progress.mustStop_untimed h (clock turn) (other turn)]
      split_ifs
      · rfl
      · refine run_bind_congr fun queue y hrun => ih ?_ (turn + 1) queue
        exact (keeps_visit stable_untimed monotone e _).of_run hrun h

theorem PrivateWalk.walk_untimed {x : Exploration} (h : x.progress.timeLimit = none)
    (clock other : Nat → Nat) (epsilon : Float) (steps turn pivot : Nat) (pool : Pool) :
    run (walk clock epsilon steps turn pivot pool) x =
      run (walk other epsilon steps turn pivot pool) x := by
  induction steps generalizing turn pivot pool x with
  | zero => rfl
  | succ steps ih =>
    refine run_bind_congr fun pool y hrun => ?_
    have hy := (keeps_expand stable_untimed.toSteady pivot _).of_run hrun h
    split_ifs
    · rfl
    · refine run_bind_congr fun choice z hrun => ?_
      have hz : z.progress.timeLimit = none := (keeps_draw stable_untimed epsilon _).of_run hrun hy
      cases choice with
      | none => rfl
      | some next =>
        refine run_bind_congr fun _ z hrun => ?_
        have hz := (stable_untimed.count _).of_run hrun hz
        refine run_bind_congr fun _ z hrun => ?_
        have hz := (stable_untimed.track next).of_run hrun hz
        rw [run_get_bind, run_get_bind,
          Progress.mustStop_untimed hz (clock turn) (other turn)]
        split_ifs
        · rfl
        · exact ih hz (turn + 1) next _

/-! ## Traversals -/

namespace Search

theorem traversal_untimed {s : Search} {x : Exploration} (h : x.progress.timeLimit = none)
    (clock other : Nat → Nat) (metric : Metric) (l : Lattice) :
    run (s.traversal clock metric l) x = run (s.traversal other metric l) x := by
  unfold traversal
  cases s.plan with
  | bestFirst =>
    refine run_bind_congr fun queue y hrun => ?_
    have hy := (BestFirst.keeps_enqueue stable_untimed l.bottom []).of_run hrun h
    exact BestFirst.visitAll_untimed hy clock other _ _ 0 queue
  | privateWalk epsilon perStep steps =>
    refine run_bind_congr fun _ y hrun => ?_
    have hy := (stable_untimed.assureChecked l.top).of_run hrun h
    refine run_bind_congr fun _ z hrun => ?_
    have hz := (stable_untimed.track l.top).of_run hrun hy
    exact PrivateWalk.walk_untimed hz clock other perStep steps 0 l.top []

/-- The sources of two searches are the same, unless both draw nothing. -/
def SameSource (s : Search) (u v : RandomSource) : Prop := s.plan = .bestFirst ∨ u = v

/-- Two searches of the same plan, from the same progress. -/
structure Twin (s t : Search) : Prop where
  plan : s.plan = t.plan
  progress : s.progress = t.progress
  source : s.SameSource s.source t.source

section
variable {R : Checker → Checker → Prop} {both : Prop} {l : Lattice}
  (hR : Checker.Bisimulation R both l)
include hR

theorem lockstep_traversal (s : Search) (clock : Nat → Nat) (metric : Metric) :
    Lockstep R s.SameSource both l (s.traversal clock metric l) := by
  refine (lockstep_searching hR).traversal (fun hplan epsilon pool => ?_) clock metric l
  exact lockstep_draw (fun u v => by simp [SameSource, hplan]) epsilon pool

variable {a b : Checker} (hab : R a b) (space : SolutionSpace) (hl : space.lattice = l)
  {s t : Search} (hst : s.Twin t)
include hab hl hst

theorem abreast_begun : Abreast R s.SameSource l (s.begun a space) (t.begun b space) := by
  unfold begun
  rw [← hst.plan]
  cases s.plan with
  | bestFirst =>
    refine ⟨congrArg Progress.start hst.progress, ?_, hl, hab, hst.source⟩
    rw [hR.criteria hab]
  | privateWalk epsilon perStep steps =>
    exact ⟨congrArg Progress.start hst.progress, rfl, hl, hR.retention hab .all, hst.source⟩

/-- Traversals without a time limit give the same answer and end abreast, if everything fits in
the end. -/
theorem abreast_ended (htime : s.progress.timeLimit = none) (clock other : Nat → Nat)
    (hfits : (s.ended clock a space).Fits) (hfits' : both → (t.ended other b space).Fits) :
    (s.traverse clock a space).1 = (t.traverse other b space).1 ∧
      Abreast R s.SameSource l (s.ended clock a space) (t.ended other b space) := by
  have hbegun := abreast_begun hR hab space hl hst
  have huntimed : (t.begun b space).progress.timeLimit = none := by
    rw [← hbegun.progress, begun]
    cases s.plan <;> exact htime
  have hsame : t.traversal clock b.metric l = s.traversal clock a.metric l := by
    rw [traversal, traversal, hst.plan, hR.metric hab]
  have hleft := s.run_traversal clock a space
  have hright := t.run_traversal other b space
  rw [hl] at hleft hright
  rw [traversal_untimed huntimed other clock, hsame] at hright
  have hstep := (lockstep_traversal hR s clock a.metric).same hbegun
  rw [hleft, hright] at hstep
  exact hstep hfits hfits'

end
end Search
end Recoding
