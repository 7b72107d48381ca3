import Recoding.Proofs.Search.Optimality

/-!
# Searches of shared spaces

Whatever traversals leave behind is truthful, but a best-first search does not queue again what
an earlier one has visited. So it still answers that its optimum is proved, and is right exactly
if nothing is anonymous or something minimal is open to it.
-/

namespace Recoding

/-- A checker and a space that traversals of a new space have left behind, however they ended. -/
inductive LeftBehind (c : Checker) (l : Lattice) : Checker → SolutionSpace → Prop
  | new : LeftBehind c l c (.ofLattice l)
  | traversed {checker : Checker} {space : SolutionSpace} (before : LeftBehind c l checker space)
      (s : Search) (clock : Nat → Nat) : LeftBehind c l (s.ended clock checker space).checker
        (s.ended clock checker space).space

section
variable {c : Checker} {l : Lattice} {checker : Checker} {space : SolutionSpace}

theorem LeftBehind.inherits (hc : c.Serves l) (h : LeftBehind c l checker space)
    (hfits : checker.history.dictionary.size < 2 ^ 32) :
    c.Precedes checker ∧ space.lattice = l ∧ space.Truthful c := by
  induction h with
  | new => exact ⟨Checker.Precedes.refl c, rfl, SolutionSpace.truthful_ofLattice l c⟩
  | @traversed checker space before s clock ih =>
    have hbegun := Exploration.fits_of_ended hfits
    obtain ⟨hprecedes, hlattice, htruthful⟩ := ih hbegun
    have hsane := Search.sane_ended (hc.precedes hprecedes hbegun) hlattice
      (htruthful.agrees hprecedes.agrees) s clock
    exact ⟨hprecedes.trans hsane.precedes, hsane.lattice,
      (hsane.truthful hfits).agrees hprecedes.agrees.symm⟩

end

section
variable {a b : Checker} {l : Lattice}

theorem Checker.Agrees.regular (h : a.Agrees b) (hb : b.Regular l) : a.Regular l := by
  refine ⟨?_, ?_, ?_⟩
  · simpa only [h.lossAt] using hb.number
  · simpa only [h.lossAt, h.boundAt] using hb.bounded
  · simpa only [h.lossAt, h.metric] using hb.monotone

theorem Checker.Agrees.best_iff (h : a.Agrees b) {s : SolutionSpace}
    {prefers : Nat → Nat → Prop} {optimum : Option Nat} :
    BestFirst.Best a s prefers optimum ↔ BestFirst.Best b s prefers optimum := by
  simp only [BestFirst.best_iff, h.anonymousAt, h.metric]

end

section
variable {d : Dataset} (hd : d.Accepted) (hrecords : d.records < 2 ^ 32)
  {criteria : List Criterion} {metric : Metric} {settings : CheckerSettings} {c : Checker}
  (hc : Checker.create d criteria metric settings = .ok c) {l : Lattice}
  (hl : Lattice.ofBounds d.minLevels d.maxLevels = .ok l)
include hd hrecords hc hl

/-- A best-first search without limits of a space that has been left behind always answers that
its optimum is proved. The optimum is the best of what is open to the search, so it is optimal in
the whole lattice exactly if nothing there is anonymous or something minimal is open. -/
theorem Search.optimal_leftBehind_iff (hregular : c.Regular l) {checker : Checker} {space : SolutionSpace}
    (hleft : LeftBehind c l checker space) {searching : SearchSettings} {entropy : RandomSource}
    {s : Search} (hs : Search.ofSettings searching entropy = .ok s)
    (hmethod : searching.method = .bestFirst) (hsteps : searching.stepLimit = none)
    (htime : searching.timeLimit = none) (clock : Nat → Nat)
    (hfits : (s.ended clock checker space).Fits) :
    let optimum := (s.ended clock checker space).progress.optimum
    (s.traverse clock checker space).1 = .ok true ∧
      BestFirst.Best c (space.forSearch c)
        (fun u v => c.lossAt (l.levelsAt u) ≤ c.lossAt (l.levelsAt v)) optimum ∧
      (c.Optimal l optimum ↔
        (∀ levels, Lattice.Within l.axes levels → c.anonymousAt levels = false) ∨
          ∃ id, (space.forSearch c).Open c.metric.isMonotone id ∧
            c.Minimal l (l.levelsAt id)) := by
  have hserves := Checker.serves_create hd hrecords hc hl
  have hbefore := Exploration.fits_of_ended hfits
  obtain ⟨hprecedes, rfl, htruthful⟩ := hleft.inherits hserves hbefore
  have hagrees := hprecedes.agrees
  have hforSearch : space.forSearch checker = space.forSearch c := by
    rw [SolutionSpace.forSearch, hagrees.criteria]
    rfl
  obtain ⟨hproved, hbest⟩ := Search.best_ended (hserves.precedes hprecedes hbefore)
    (htruthful.agrees hagrees) (hagrees.regular hregular).guide
    (Search.unlimited_ofSettings hs hmethod hsteps htime) clock hfits
  rw [hforSearch] at hbest
  have hbest := (hagrees.best_iff).mp hbest
  simp only [hagrees.lossAt] at hbest
  exact ⟨hproved, hbest, hbest.optimal_iff⟩

end

namespace Sample

theorem within_cases {levels : List Nat} (h : Lattice.Within lattice.axes levels) :
    levels = [0] ∨ levels = [1] := by
  cases h with
  | cons hlevel hrest =>
    cases hrest
    have hlevel : 0 ≤ _ ∧ _ ≤ 1 := hlevel
    simp only [List.cons.injEq, and_true]
    omega

theorem regular : (checker keeping).Regular lattice :=
  (Checker.regular_plain dataset_accepted.wellFormed (checker_eq keeping)
    (dataset_accepted.wellFormed.covers lattice_eq) trivial).1

def searched : Exploration := search.ended surroundings.clock (checker keeping) (.ofLattice lattice)

theorem searched_leftBehind :
    LeftBehind (checker keeping) lattice searched.checker searched.space := by
  unfold searched
  exact .traversed .new search surroundings.clock

end Sample

namespace Search

open Sample in
/-- Nothing minimal is open to a second search of the sample. -/
theorem optimal_leftBehind_iff_sample :
    (search.traverse surroundings.clock searched.checker searched.space).1 = .ok true ∧
      ¬∃ id, (searched.space.forSearch (checker keeping)).Open true id ∧
        (checker keeping).Minimal lattice (lattice.levelsAt id) := by
  obtain ⟨hproved, -, hoptimal⟩ := optimal_leftBehind_iff dataset_accepted (by decide)
    (checker_eq keeping) lattice_eq regular searched_leftBehind
    search_eq rfl rfl rfl surroundings.clock (show _ < _ by decide +kernel)
  refine ⟨hproved, fun hopen => ?_⟩
  have hnone : (search.ended surroundings.clock searched.checker
      searched.space).progress.optimum = none := by decide +kernel
  have hviolated := (hoptimal.mpr (Or.inr hopen)).none.mp hnone [1]
    (.cons (by decide) .nil)
  exact absurd hviolated (by decide +kernel)

open Sample in
/-- A second search of the sample misses its only anonymous transformation. -/
theorem leftBehind_missed : ∃ after space,
    LeftBehind (checker keeping) lattice after space ∧ (checker keeping).Regular lattice ∧
      (search.traverse surroundings.clock after space).1 = .ok true ∧
      (search.ended surroundings.clock after space).progress.optimum = none ∧
      (checker keeping).Minimal lattice [1] := by
  have hoptimum : (search.ended surroundings.clock searched.checker
      searched.space).progress.optimum = none := by decide +kernel
  refine ⟨searched.checker, searched.space, searched_leftBehind, regular, ?_, hoptimum, ?_⟩
  · have hanswer : (search.traverse surroundings.clock searched.checker
        searched.space).1.toOption = some true := by decide +kernel
    cases h : (search.traverse surroundings.clock searched.checker searched.space).1 with
    | error failure =>
      rw [h] at hanswer
      cases hanswer
    | ok proved =>
      rw [h] at hanswer
      rw [Option.some.inj hanswer]
  · refine ⟨by decide +kernel, fun other hother hanonymous => ?_⟩
    rcases within_cases hother with rfl | rfl
    · have hviolated : (checker keeping).anonymousAt [0] = false := by decide +kernel
      rw [hviolated] at hanonymous
      cases hanonymous
    · decide +kernel

end Search

end Recoding
