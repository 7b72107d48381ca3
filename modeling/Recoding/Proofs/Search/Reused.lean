import Recoding.Proofs.Search.Lockstep
import Recoding.Proofs.Search.Shared

/-!
# Searches used again

A search may traverse one space after another. It keeps its plan, its objective and its limits,
and starts its phase, its clock and its count of checks anew, but it carries its optimum from one
traversal to the next. An optimum that is no transformation of the next lattice neither prunes nor
ties with anything there, so it only stands in where a search without it would have found none.
-/

namespace Recoding

open Exploration

namespace Search

inductive Of (settings : SearchSettings) : Search → Prop
  | new {entropy : RandomSource} {s : Search} (h : ofSettings settings entropy = .ok s) :
      Of settings s
  | traversed {s : Search} (before : Of settings s) (clock : Nat → Nat) (checker : Checker)
      (space : SolutionSpace) : Of settings (s.traverse clock checker space).2.1

/-- Two searches that differ in their source, and in how far they have got. -/
structure Peers (s t : Search) : Prop where
  plan : s.plan = t.plan
  objective : s.progress.objective = t.progress.objective
  stepLimit : s.progress.stepLimit = t.progress.stepLimit
  timeLimit : s.progress.timeLimit = t.progress.timeLimit

theorem Peers.symm {s t : Search} (h : s.Peers t) : t.Peers s :=
  ⟨h.plan.symm, h.objective.symm, h.stepLimit.symm, h.timeLimit.symm⟩

theorem Peers.trans {s t u : Search} (h : s.Peers t) (k : t.Peers u) : s.Peers u :=
  ⟨h.plan.trans k.plan, h.objective.trans k.objective, h.stepLimit.trans k.stepLimit,
    h.timeLimit.trans k.timeLimit⟩

theorem Peers.start_eq {s t : Search} (h : s.Peers t) :
    s.progress.start = { t.progress.start with optimum := s.progress.optimum } := by
  simp only [Progress.start, h.objective, h.stepLimit, h.timeLimit]

theorem peers_new {settings : SearchSettings} {entropy other : RandomSource} {s t : Search}
    (hs : ofSettings settings entropy = .ok s) (ht : ofSettings settings other = .ok t) :
    s.Peers t := by
  have hplan : s.plan = t.plan := by
    cases hmethod : settings.method with
    | bestFirst =>
      rw [ofSettings, hmethod] at hs ht
      cases hs
      cases ht
      rfl
    | privateWalk =>
      obtain ⟨own, hown, hplan⟩ := plan_ofSettings hs hmethod
      obtain ⟨peer, hpeer, hplan'⟩ := plan_ofSettings ht hmethod
      cases hown.symm.trans hpeer
      rw [hplan, hplan']
  refine ⟨hplan, ?_, ?_, ?_⟩ <;> rw [(new_ok hs).1, (new_ok ht).1, hplan]

theorem peers_traversed (s : Search) (clock : Nat → Nat) (checker : Checker)
    (space : SolutionSpace) : (s.traverse clock checker space).2.1.Peers s := by
  have hbegun : (s.begun checker space).progress.objective = s.progress.objective ∧
      (s.begun checker space).progress.stepLimit = s.progress.stepLimit ∧
      (s.begun checker space).progress.timeLimit = s.progress.timeLimit := by
    rw [s.begun_progress]
    exact ⟨rfl, rfl, rfl⟩
  obtain ⟨hobjective, hsteps, htime⟩ := s.keeps_ended (stable_progress
    (P := fun p => p.objective = s.progress.objective ∧ p.stepLimit = s.progress.stepLimit ∧
      p.timeLimit = s.progress.timeLimit)
    (fun _ _ h => h) (fun _ _ h => h) fun _ _ h => h) clock hbegun
  exact ⟨rfl, hobjective, hsteps, htime⟩

theorem Of.exists_peer {settings : SearchSettings} {s : Search} (hs : s.Of settings) :
    ∃ entropy t, ofSettings settings entropy = .ok t ∧ s.Peers t := by
  induction hs with
  | new h => exact ⟨_, _, h, peers_new h h⟩
  | @traversed s before clock checker space ih =>
    obtain ⟨entropy, t, ht, hpeers⟩ := ih
    exact ⟨entropy, t, ht, (peers_traversed s clock checker space).trans hpeers⟩

theorem Of.peers {settings : SearchSettings} {s t : Search} (hs : s.Of settings)
    (ht : t.Of settings) : s.Peers t := by
  obtain ⟨_, u, hu, hsu⟩ := hs.exists_peer
  obtain ⟨_, v, hv, htv⟩ := ht.exists_peer
  exact (hsu.trans (peers_new hu hv)).trans htv.symm

theorem Of.plan_bestFirst {settings : SearchSettings} {s : Search} (hs : s.Of settings)
    (hmethod : settings.method = .bestFirst) : s.plan = .bestFirst := by
  obtain ⟨entropy, t, ht, hpeers⟩ := hs.exists_peer
  rw [ofSettings, hmethod] at ht
  cases ht
  exact hpeers.plan

theorem Of.plan_privateWalk {settings : SearchSettings} {s : Search} (hs : s.Of settings)
    (hmethod : settings.method = .privateWalk) : ∃ perStep,
      s.plan = .privateWalk settings.epsilon perStep (settings.expansionLimit.getD 0) := by
  obtain ⟨entropy, t, ht, hpeers⟩ := hs.exists_peer
  obtain ⟨perStep, -, hplan⟩ := plan_ofSettings ht hmethod
  exact ⟨perStep, hpeers.plan.trans hplan⟩

end Search

theorem Exploration.stable_housed (l : Lattice) : Stable fun x => x.space.Housed l := by
  refine stable_space (P := (·.Housed l)) (fun h _ hafter => h.modify hafter)
    (fun h hafter => h.modify hafter) fun c s id objective h => ?_
  rcases SolutionSpace.check_space c s id false objective with hsame | ⟨e, hrecord⟩
  · rwa [hsame]
  · exact h.record hrecord

theorem LeftBehind.housed {c checker : Checker} {l : Lattice} {space : SolutionSpace}
    (h : LeftBehind c l checker space) : space.Housed l := by
  induction h with
  | new => exact SolutionSpace.housed_ofLattice l
  | @traversed checker space before s clock ih =>
    refine s.keeps_ended (stable_housed l) clock ?_
    unfold Search.begun
    cases s.plan <;> exact ih

/-! ## Runs that match -/

namespace Exploration

/-- A part of a search that has the same outcome from related states, and leaves them related. -/
def Matches {α : Type} (R : Exploration → Exploration → Prop) (m : Exploring α) : Prop :=
  ∀ x y, R x y → (run m x).1 = (run m y).1 ∧ R (run m x).2 (run m y).2

theorem matches_compositional {R : Exploration → Exploration → Prop}
    (hR : ∀ x y, R x y → Alike x y) : Compositional (Matches R ·) where
  pure _ _ _ h := ⟨rfl, h⟩
  throw _ _ _ h := ⟨rfl, h⟩
  bind {α β m f} hm hf x y h := by
    obtain ⟨hsame, hrelated⟩ := hm x y h
    rw [run_bind, run_bind]
    rcases hrun : run m x with ⟨failure | a, x'⟩ <;>
      rcases hrun' : run m y with ⟨failure' | b, y'⟩ <;>
      rw [hrun, hrun'] at hsame hrelated <;> cases hsame
    · exact ⟨rfl, hrelated⟩
    · exact hf a x' y' hrelated
  read {β f} hf hsame x y h := by
    rw [run_get_bind, run_get_bind, hsame x y (hR x y h)]
    exact hf y x y h

end Exploration

/-! ## A carried optimum -/

/-- The progress with an optimum from before, which any optimum of its own replaces. -/
def Progress.carrying (p : Progress) (carried : Option Nat) : Progress :=
  { p with optimum := p.optimum.or carried }

section
variable {carried : Option Nat} {s : SolutionSpace} (h : ∀ o ∈ carried, s.node? o = none)
include h

theorem Progress.node?_carrying (p : Progress) :
    (p.carrying carried).optimum >>= s.node? = p.optimum >>= s.node? := by
  unfold carrying
  cases p.optimum with
  | some own => rfl
  | none =>
    cases carried with
    | none => rfl
    | some o => exact h o rfl

theorem Progress.track_carrying (p : Progress) (id : Nat) :
    (p.carrying carried).track s id = (p.track s id).carrying carried := by
  have hobjective : (p.carrying carried).objective = p.objective := rfl
  unfold track
  rw [node?_carrying h, hobjective]
  cases s.node? id with
  | none => rfl
  | some candidate =>
    dsimp only
    split_ifs
    · cases p.optimum >>= s.node? with
      | none => rfl
      | some current =>
        dsimp only
        split_ifs <;> rfl
    · rfl

end

namespace Exploration

/-- Two states of which the second carries an optimum that is no transformation. -/
structure Carries (carried : Option Nat) (S : RandomSource → RandomSource → Prop) (l : Lattice)
    (x y : Exploration) : Prop where
  progress : y.progress = x.progress.carrying carried
  checker : y.checker = x.checker
  space : y.space = x.space
  housed : x.space.Housed l
  source : S x.source y.source

section
variable {carried : Option Nat} {S : RandomSource → RandomSource → Prop} {l : Lattice}
  (hcarried : ∀ o ∈ carried, l.size ≤ o) {x y : Exploration}
include hcarried

theorem Carries.nodeless (h : Carries carried S l x y) :
    ∀ o ∈ carried, x.space.node? o = none :=
  fun o ho => h.housed.node?_eq_none (hcarried o ho)

theorem Carries.alike (h : Carries carried S l x y) : Alike x y := by
  have hnode := x.progress.node?_carrying (h.nodeless hcarried)
  have hloss : BestFirst.optimumLoss? x = BestFirst.optimumLoss? y := by
    have hbind : ∀ z : Exploration, BestFirst.optimumLoss? z =
        (z.progress.optimum >>= z.space.node?) >>= fun node =>
          node.loss >>= fun loss => pure loss.value := by
      intro z
      rw [bind_assoc]
      rfl
    rw [hbind, hbind, h.progress, h.space, hnode]
  refine ⟨h.space.symm, by rw [h.checker], fun time => ?_, fun monotone e => ?_⟩
  · rw [h.progress]
    rfl
  · unfold BestFirst.verdict
    rw [hloss, h.space]

omit hcarried in
theorem matches_onSpace {f : SolutionSpace → Except Failure SolutionSpace}
    (hf : ∀ {s after : SolutionSpace}, s.Housed l → f s = .ok after → after.Housed l) :
    Matches (Carries carried S l) (onSpace f) := by
  intro x y h
  rw [run_onSpace_eq, run_onSpace_eq, h.space]
  cases hspace : f x.space with
  | error failure => exact ⟨rfl, h⟩
  | ok space => exact ⟨rfl, h.progress, h.checker, rfl, hf h.housed hspace, h.source⟩

omit hcarried in
theorem matches_assureChecked (id : Nat) :
    Matches (Carries carried S l) (assureChecked id) := by
  intro x y h
  have hsettled : y.progress.isSettled y.space id = x.progress.isSettled x.space id := by
    rw [h.progress, h.space]
    rfl
  have hcheck : y.checker.check y.space id false y.progress.objective =
      x.checker.check x.space id false x.progress.objective := by
    rw [h.checker, h.space, h.progress]
    rfl
  have hhoused := (stable_housed l).assureChecked id x h.housed
  rw [run_assureChecked] at hhoused ⊢
  rw [run_assureChecked, hsettled, hcheck]
  split_ifs at hhoused ⊢
  · exact ⟨rfl, h⟩
  · rcases hresult : x.checker.check x.space id false x.progress.objective with
      ⟨failure | e, checker, space⟩ <;> rw [hresult] at hhoused
    · exact ⟨rfl, h.progress, rfl, rfl, hhoused, h.source⟩
    · refine ⟨rfl, ?_, rfl, rfl, hhoused, h.source⟩
      dsimp only
      rw [h.progress]
      rfl

theorem matches_track (id : Nat) : Matches (Carries carried S l) (track id) := by
  intro x y h
  refine ⟨rfl, ?_, h.checker, h.space, h.housed, h.source⟩
  show y.progress.track y.space id = (x.progress.track x.space id).carrying carried
  rw [h.progress, h.space, Progress.track_carrying (h.nodeless hcarried)]

theorem matches_searching : Searching (Matches (Carries carried S l) ·) where
  toCompositional := matches_compositional fun _ _ h => h.alike hcarried
  visited _ := matches_onSpace fun h hafter => h.modify hafter
  mark _ _ _ := matches_onSpace fun h hafter => h.modify hafter
  bound _ _ := matches_onSpace fun h hafter => h.modify hafter
  assureChecked := matches_assureChecked
  count f _ _ _ h :=
    ⟨rfl, h.progress, congrArg (Checker.count · f) h.checker, h.space, h.housed, h.source⟩
  track := matches_track hcarried
  finish _ _ _ h :=
    ⟨rfl, congrArg Progress.terminate h.progress, h.checker, h.space, h.housed, h.source⟩

omit hcarried in
theorem matches_draw (hS : ∀ u v, S u v ↔ u = v) (epsilon : Float) (pool : PrivateWalk.Pool) :
    Matches (Carries carried S l) (PrivateWalk.draw epsilon pool) := by
  intro x y h
  rw [PrivateWalk.run_draw, PrivateWalk.run_draw, (hS _ _).mp h.source]
  exact ⟨rfl, h.progress, h.checker, h.space, h.housed, (hS _ _).mpr rfl⟩

end
end Exploration

namespace Search

variable {settings : SearchSettings} {s t : Search}

/-- From where it begins, a used search differs from a peer without an optimum by what it
carries. -/
theorem Peers.carries_begun (h : s.Peers t) (ht : t.progress.optimum = none)
    (hsource : s.SameSource t.source s.source) {l : Lattice} {space : SolutionSpace}
    (hspace : space.Housed l) (checker : Checker) :
    Carries s.progress.optimum s.SameSource l (t.begun checker space)
      (s.begun checker space) := by
  have hprogress : s.progress.start = t.progress.start.carrying s.progress.optimum := by
    have hnone : t.progress.start.optimum = none := ht
    rw [h.start_eq, Progress.carrying, hnone]
    rfl
  unfold begun
  rw [← h.plan]
  cases s.plan with
  | bestFirst => exact ⟨hprogress, rfl, rfl, hspace, hsource⟩
  | privateWalk epsilon perStep steps => exact ⟨hprogress, rfl, rfl, hspace, hsource⟩

/-- A search that carries an optimum which is no transformation of the lattice does what a peer
without an optimum does, and the carried optimum stands in for the one that the peer lacks. -/
theorem Peers.carries_ended (h : s.Peers t) (ht : t.progress.optimum = none)
    (hsource : s.SameSource t.source s.source) {l : Lattice}
    (hcarried : ∀ o ∈ s.progress.optimum, l.size ≤ o) {space : SolutionSpace}
    (hspace : space.Housed l) (clock : Nat → Nat) (checker : Checker) :
    (t.traverse clock checker space).1 = (s.traverse clock checker space).1 ∧
      Carries s.progress.optimum s.SameSource l (t.ended clock checker space)
        (s.ended clock checker space) := by
  have hmatches : Matches (Carries s.progress.optimum s.SameSource l)
      (s.traversal clock checker.metric space.lattice) :=
    (matches_searching hcarried).traversal (fun hplan epsilon pool =>
      matches_draw (fun u v => by simp [SameSource, hplan]) epsilon pool) _ _ _
  have hsame : t.traversal clock checker.metric space.lattice =
      s.traversal clock checker.metric space.lattice := by
    rw [traversal, traversal, h.plan]
  have hstep := hmatches _ _ (h.carries_begun ht hsource hspace checker)
  rw [s.run_traversal clock checker space] at hstep
  rw [← hsame, t.run_traversal clock checker space] at hstep
  exact hstep

/-- The optimum of a traversal is the one that the search has carried along, or a checked anonymous
transformation. Where the carried one is no transformation of the lattice, the search answers as
one without an optimum does, and reports what that finds or else what it carries. -/
theorem optimum_carried {d : Dataset} (hd : d.Accepted) (hrecords : d.records < 2 ^ 32)
    {criteria : List Criterion} {metric : Metric} {limits : CheckerSettings} {c : Checker}
    (hc : Checker.create d criteria metric limits = .ok c) {l : Lattice}
    (hl : Lattice.ofBounds d.minLevels d.maxLevels = .ok l) {checker : Checker}
    {space : SolutionSpace} (hleft : LeftBehind c l checker space) (hs : s.Of settings)
    (clock : Nat → Nat) :
    let after := s.ended clock checker space
    (after.Fits → after.progress.optimum = s.progress.optimum ∨
      ∃ id, after.progress.optimum = some id ∧ id < l.size ∧
        after.space.marked id Mark.checked = true ∧ c.anonymousAt (l.levelsAt id) = true) ∧
    ((∀ o ∈ s.progress.optimum, l.size ≤ o) → ∀ t : Search, t.Of settings →
      t.progress.optimum = none → s.SameSource t.source s.source →
      (s.traverse clock checker space).1 = (t.traverse clock checker space).1 ∧
        after.progress.optimum =
          (t.ended clock checker space).progress.optimum.or s.progress.optimum) := by
  intro after
  constructor
  · intro hfits
    have hserves := Checker.serves_create hd hrecords hc hl
    have hbefore := fits_of_ended hfits
    obtain ⟨hprecedes, hlattice, htruthful⟩ := hleft.inherits hserves hbefore
    have hsane := s.sane_ended (hserves.precedes hprecedes hbefore) hlattice
      (htruthful.agrees hprecedes.agrees) clock
    refine (hsane.optimum hfits).imp_right ?_
    rintro ⟨id, hid, hchecked, hanonymous⟩
    have hsize := (hsane.truthful hfits).lt_size hchecked
    rw [hsane.lattice] at hsize
    exact ⟨id, hid, hsize, hchecked, hprecedes.agrees.anonymousAt _ ▸ hanonymous⟩
  · intro hcarried t ht hnone hsource
    obtain ⟨hsame, hcarries⟩ := (hs.peers ht).carries_ended hnone hsource hcarried hleft.housed
      clock checker
    exact ⟨hsame.symm, congrArg Progress.optimum hcarries.progress⟩

end Search

namespace Sample

/-- The dataset with its attribute held at level 0. -/
def pinned : Dataset := { dataset with maxLevels := [0] }

theorem pinned_accepted : pinned.Accepted :=
  .ofTable (show ∀ h ∈ [hierarchy], h.Accepted by simp [hierarchy_accepted])
    (show Dataset.ofTable table [hierarchy] [some (0, 0)] = .ok pinned from rfl)

def point : Lattice := ⟨[⟨0, 0, le_rfl⟩]⟩

theorem point_eq : Lattice.ofBounds pinned.minLevels pinned.maxLevels = .ok point := rfl

/-- A new checker for the pinned dataset. -/
def pinnedChecker : Checker := { checker keeping with dataset := pinned }

theorem pinnedChecker_eq :
    Checker.create pinned [.kAnonymity 2] (.height .sum) keeping = .ok pinnedChecker := rfl

def used : Search :=
  (search.traverse surroundings.clock (checker keeping) (.ofLattice lattice)).2.1

theorem used_of : used.Of .standard := by
  unfold used
  exact .traversed (.new search_eq) surroundings.clock (checker keeping) (.ofLattice lattice)

theorem used_optimum : used.progress.optimum = some 1 := by decide +kernel

end Sample

namespace Search

open Sample in
/-- Nothing is anonymous in the lattice of one transformation, and the used search reports the
optimum that it carries. -/
theorem optimum_carried_sample :
    let after := used.ended surroundings.clock pinnedChecker (.ofLattice point)
    (after.progress.optimum = used.progress.optimum ∨ ∃ id, after.progress.optimum = some id ∧
        id < point.size ∧ after.space.marked id Mark.checked = true ∧
        pinnedChecker.anonymousAt (point.levelsAt id) = true) ∧
      (used.traverse surroundings.clock pinnedChecker (.ofLattice point)).1 =
        (search.traverse surroundings.clock pinnedChecker (.ofLattice point)).1 ∧
      after.progress.optimum = some 1 := by
  intro after
  obtain ⟨hfound, hcarried⟩ := optimum_carried pinned_accepted (by decide) pinnedChecker_eq
    point_eq .new used_of surroundings.clock
  have hfits : (used.ended surroundings.clock pinnedChecker
      (.ofLattice point)).checker.history.dictionary.size < 2 ^ 32 := by decide +kernel
  have hforeign : ∀ o ∈ used.progress.optimum, point.size ≤ o := by
    rw [used_optimum]
    rintro _ ⟨⟩
    decide
  have hplan : used.plan = .bestFirst := used_of.plan_bestFirst rfl
  obtain ⟨hanswer, hoptimum⟩ := hcarried hforeign search (.new search_eq) rfl (Or.inl hplan)
  have hnone : (search.ended surroundings.clock pinnedChecker
      (.ofLattice point)).progress.optimum = none := by decide +kernel
  rw [hnone, used_optimum] at hoptimum
  exact ⟨hfound hfits, hanswer, hoptimum⟩

open Sample in
/-- A used best-first search without limits calls an optimum proved that is no transformation of
the new lattice it has searched, where a new search finds none. -/
theorem carried_unproved : ∃ (s new : Search) (c : Checker) (l : Lattice), s.Of .standard ∧
    ofSettings .standard (.ofSeed 0) = .ok new ∧
    Checker.create pinned [.kAnonymity 2] (.height .sum) keeping = .ok c ∧
    Lattice.ofBounds pinned.minLevels pinned.maxLevels = .ok l ∧
    (s.traverse surroundings.clock c (.ofLattice l)).1 = .ok true ∧
    (s.ended surroundings.clock c (.ofLattice l)).progress.optimum = some 1 ∧ ¬1 < l.size ∧
    (new.ended surroundings.clock c (.ofLattice l)).progress.optimum = none := by
  refine ⟨used, search, pinnedChecker, point, used_of, search_eq, pinnedChecker_eq, point_eq, ?_,
    by decide +kernel, by decide, by decide +kernel⟩
  have hanswer : (used.traverse surroundings.clock pinnedChecker
      (.ofLattice point)).1.toOption = some true := by decide +kernel
  cases h : (used.traverse surroundings.clock pinnedChecker (.ofLattice point)).1 with
  | error failure =>
    rw [h] at hanswer
    cases hanswer
  | ok proved =>
    rw [h] at hanswer
    rw [Option.some.inj hanswer]

end Search

end Recoding
