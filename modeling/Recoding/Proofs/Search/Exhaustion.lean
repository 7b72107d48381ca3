import Recoding.Proofs.Search.Scores
import Recoding.Proofs.Search.Spending

/-!
# Exhaustion of private walks

The optimum of a walk outscores whatever the walk has drawn so far. A walk that ends for want of
candidates has drawn everything below the top, so its optimum outscores the whole lattice.
-/

namespace Recoding

open Exploration

/-! ## Comparing findings -/

/-- One finding has the higher score, or as high a score at a level that is no higher. -/
def Finding.Outscores (f g : Finding) : Prop :=
  g.score < f.score ∨ g.score = f.score ∧ levelSum f.levels ≤ levelSum g.levels

/-- One finding has the higher score, or as high a score at a lower level. -/
def Finding.Beats (f g : Finding) : Prop :=
  g.score < f.score ∨ g.score = f.score ∧ levelSum f.levels < levelSum g.levels

/-- Findings from the highest score down, and from the lowest level up among equal scores. -/
def Finding.rank (f : Finding) : Lex (ℚᵒᵈ × ℕ) :=
  toLex (OrderDual.toDual f.score, levelSum f.levels)

theorem Finding.outscores_iff {f g : Finding} : f.Outscores g ↔ f.rank ≤ g.rank := by
  rw [rank, rank, Prod.Lex.toLex_le_toLex, OrderDual.toDual_lt_toDual, OrderDual.toDual_inj, eq_comm]
  rfl

theorem Finding.beats_iff {f g : Finding} : f.Beats g ↔ f.rank < g.rank := by
  rw [rank, rank, Prod.Lex.toLex_lt_toLex, OrderDual.toDual_lt_toDual, OrderDual.toDual_inj, eq_comm]
  rfl

theorem Finding.Outscores.refl (f : Finding) : f.Outscores f := outscores_iff.mpr le_rfl

theorem Finding.Outscores.trans {f g k : Finding} (hfg : f.Outscores g) (hgk : g.Outscores k) :
    f.Outscores k :=
  outscores_iff.mpr ((outscores_iff.mp hfg).trans (outscores_iff.mp hgk))

theorem Finding.Beats.outscores {f g : Finding} (h : f.Beats g) : f.Outscores g :=
  outscores_iff.mpr (beats_iff.mp h).le

theorem Finding.not_beats {f g : Finding} : ¬g.Beats f ↔ f.Outscores g := by
  rw [beats_iff, outscores_iff, not_lt]

theorem Finding.Beats.trans_outscores {f g k : Finding} (hfg : f.Beats g) (hgk : g.Outscores k) :
    f.Beats k :=
  beats_iff.mpr ((beats_iff.mp hfg).trans_le (outscores_iff.mp hgk))

namespace SolutionSpace

/-- An optimum that is one of the given transformations and outscores those of them that are
anonymous, by what the space holds about them. -/
structure Leads (s : SolutionSpace) (seen : List Nat) (optimum : Option Nat) : Prop where
  found : ∀ o ∈ optimum, o ∈ seen ∧ ∃ f, s.Shows o f ∧ f.anonymous = true
  outscores : ∀ v ∈ seen, ∃ g, s.Shows v g ∧
    (g.anonymous = true → ∃ o ∈ optimum, ∃ f, s.Shows o f ∧ f.Outscores g)

/-- All transformations are settled, and the optimum is an anonymous one that outscores every
anonymous one, or there is none, as nothing is anonymous. -/
structure Leading (s : SolutionSpace) (optimum : Option Nat) : Prop where
  settled : ∀ v < s.lattice.size, s.Settled v
  none : optimum = none ↔ ∀ v < s.lattice.size, ∀ f, s.Shows v f → f.anonymous = false
  some : ∀ o, optimum = some o → o < s.lattice.size ∧ ∃ f, s.Shows o f ∧ f.anonymous = true ∧
    ∀ v < s.lattice.size, ∀ g, s.Shows v g → g.anonymous = true → f.Outscores g

section
variable {s after : SolutionSpace} {seen : List Nat} {optimum : Option Nat}

theorem leads_nil (s : SolutionSpace) : s.Leads [] none :=
  ⟨fun _ ho => (nomatch ho), fun _ hv => absurd hv List.not_mem_nil⟩

namespace Leads

variable (h : s.Leads seen optimum)
include h

theorem settled {v : Nat} (hv : v ∈ seen) : s.Settled v := by
  obtain ⟨g, hg, -⟩ := h.outscores v hv
  exact ⟨g, hg⟩

theorem mono (hshows : ∀ v f, s.Shows v f → after.Shows v f) : after.Leads seen optimum := by
  constructor
  · intro o ho
    obtain ⟨hseen, f, hf, hanonymous⟩ := h.found o ho
    exact ⟨hseen, f, hshows o f hf, hanonymous⟩
  · intro v hv
    obtain ⟨g, hg, hbest⟩ := h.outscores v hv
    refine ⟨g, hshows v g hg, fun hanonymous => ?_⟩
    obtain ⟨o, ho, f, hf, houtscores⟩ := hbest hanonymous
    exact ⟨o, ho, f, hshows o f hf, houtscores⟩

theorem stay {v : Nat} {g : Finding} (hv : s.Shows v g) (hbest : g.anonymous = true →
    ∃ o ∈ optimum, ∃ f, s.Shows o f ∧ f.Outscores g) : s.Leads (seen ++ [v]) optimum := by
  constructor
  · intro o ho
    obtain ⟨hseen, hfound⟩ := h.found o ho
    exact ⟨List.mem_append_left _ hseen, hfound⟩
  · intro w hw
    rcases List.mem_append.mp hw with hw | hw
    · exact h.outscores w hw
    · rw [List.mem_singleton.mp hw]
      exact ⟨g, hv, hbest⟩

theorem replace {v : Nat} {f : Finding} (hv : s.Shows v f) (hanonymous : f.anonymous = true)
    (hbest : ∀ o ∈ optimum, ∀ g, s.Shows o g → f.Outscores g) :
    s.Leads (seen ++ [v]) (some v) := by
  constructor
  · rintro _ ⟨⟩
    exact ⟨List.mem_append_right _ (List.mem_singleton_self v), f, hv, hanonymous⟩
  · intro w hw
    rcases List.mem_append.mp hw with hw | hw
    · obtain ⟨g, hg, hless⟩ := h.outscores w hw
      refine ⟨g, hg, fun hanonymous => ⟨v, rfl, f, hv, ?_⟩⟩
      obtain ⟨o, ho, k, hk, houtscores⟩ := hless hanonymous
      exact (hbest o ho k hk).trans houtscores
    · rw [List.mem_singleton.mp hw]
      exact ⟨f, hv, fun _ => ⟨v, rfl, f, hv, Finding.Outscores.refl f⟩⟩

theorem leading (hall : ∀ v, v ∈ seen ↔ v < s.lattice.size) : s.Leading optimum := by
  refine ⟨fun v hv => h.settled ((hall v).mpr hv), ⟨fun hnone v hv f hf => ?_, fun hnone => ?_⟩,
    fun o ho => ?_⟩
  · refine Bool.eq_false_iff.mpr fun hanonymous => ?_
    obtain ⟨g, hg, hbest⟩ := h.outscores v ((hall v).mpr hv)
    cases hf.unique hg
    obtain ⟨o, ho, -⟩ := hbest hanonymous
    rw [hnone] at ho
    cases ho
  · refine Option.eq_none_iff_forall_not_mem.mpr fun o ho => ?_
    obtain ⟨hseen, f, hf, hanonymous⟩ := h.found o ho
    rw [hnone o ((hall o).mp hseen) f hf] at hanonymous
    cases hanonymous
  · obtain ⟨hseen, f, hf, hanonymous⟩ := h.found o ho
    refine ⟨(hall o).mp hseen, f, hf, hanonymous, fun v hv g hg hanonymous' => ?_⟩
    obtain ⟨_, hg', hbest⟩ := h.outscores v ((hall v).mpr hv)
    cases hg.unique hg'
    obtain ⟨_, ho', k, hk, houtscores⟩ := hbest hanonymous'
    cases ho.symm.trans ho'
    rwa [hf.unique hk]

end Leads
end
end SolutionSpace

/-! ## Truth of what leads -/

namespace Checker

/-- An anonymous transformation that scores at least what any other anonymous one scores, and
whose level is the lowest of those that score as much. -/
structure Highest (c : Checker) (l : Lattice) (levels : List Nat) (score : Rat) : Prop where
  anonymous : c.anonymousAt levels = true
  scored : c.scoreAt levels = some score
  highest : ∀ other, Lattice.Within l.axes other → c.anonymousAt other = true →
    ∃ lower, c.scoreAt other = some lower ∧ lower ≤ score ∧
      (lower = score → levelSum levels ≤ levelSum other)

/-- An optimum that is highest in the whole lattice, or none if nothing is anonymous. -/
structure Leading (c : Checker) (l : Lattice) (optimum : Option Nat) : Prop where
  none : optimum = none ↔ ∀ levels, Lattice.Within l.axes levels → c.anonymousAt levels = false
  some : ∀ o, optimum = some o → ∃ levels score, l.levelsOf o = .ok levels ∧
    c.Highest l levels score

theorem Leading.agrees {a b : Checker} {l : Lattice} {optimum : Option Nat}
    (h : a.Leading l optimum) (hab : b.Agrees a) : b.Leading l optimum := by
  refine ⟨by simpa only [hab.anonymousAt] using h.none, fun o ho => ?_⟩
  obtain ⟨levels, score, hlevels, hhighest⟩ := h.some o ho
  refine ⟨levels, score, hlevels, ?_, ?_, ?_⟩
  · simpa only [hab.anonymousAt] using hhighest.anonymous
  · simpa only [hab.scoreAt] using hhighest.scored
  · simpa only [hab.anonymousAt, hab.scoreAt] using hhighest.highest

end Checker

namespace SolutionSpace

section
variable {s : SolutionSpace} {c : Checker} (ht : s.Truthful c) (hs : s.Scored c)
include ht hs

theorem Shows.truthful {v : Nat} {f : Finding} (h : s.Shows v f) :
    c.anonymousAt (s.lattice.levelsAt v) = f.anonymous ∧
      c.scoreAt (s.lattice.levelsAt v) = some f.score ∧ f.levels = s.lattice.levelsAt v := by
  refine ⟨?_, hs v f.score h.scoreOf, ?_⟩
  · have hverdict := ht.anonymous v
    rw [h.marked_checked, h.marked_anonymous, Bool.true_and] at hverdict
    exact hverdict.symm
  · obtain ⟨node, hnode, hshows⟩ := h
    rw [← hshows.levels, (Lattice.levelsOf_ok (ht.indexed v node hnode)).2]
    rfl

theorem Leading.truthful {optimum : Option Nat} (h : s.Leading optimum) :
    c.Leading s.lattice optimum := by
  have hat : ∀ levels, Lattice.Within s.lattice.axes levels →
      ∃ v < s.lattice.size, s.lattice.levelsAt v = levels := fun levels hlevels =>
    ⟨_, hlevels.encode_lt, hlevels.decode_encode⟩
  constructor
  · rw [h.none]
    constructor
    · intro hnone levels hlevels
      obtain ⟨v, hv, rfl⟩ := hat levels hlevels
      obtain ⟨f, hf⟩ := h.settled v hv
      rw [(hf.truthful ht hs).1]
      exact hnone v hv f hf
    · intro hnone v hv f hf
      rw [← (hf.truthful ht hs).1]
      exact hnone _ (Lattice.decode_within _ v)
  · intro o ho
    obtain ⟨hsize, f, hf, hanonymous, hbest⟩ := h.some o ho
    obtain ⟨hverdict, hscore, hlevels⟩ := hf.truthful ht hs
    refine ⟨_, f.score, Lattice.levelsOf_levelsAt hsize, hverdict.trans hanonymous, hscore, ?_⟩
    intro other hother hanonymous'
    obtain ⟨v, hv, rfl⟩ := hat other hother
    obtain ⟨g, hg⟩ := h.settled v hv
    obtain ⟨hverdict', hscore', hlevels'⟩ := hg.truthful ht hs
    refine ⟨g.score, hscore', ?_⟩
    rw [← hlevels, ← hlevels']
    rcases hbest v hv g hg (hverdict'.symm.trans hanonymous') with hlt | ⟨he, hle⟩
    · exact ⟨hlt.le, fun he => absurd he hlt.ne⟩
    · exact ⟨he.le, fun _ => hle⟩

end
end SolutionSpace

/-! ## The optimum along a walk -/

namespace Progress

theorem isBetter_score_iff {candidate current : Node} {f g : Finding} (hf : candidate.Shows f)
    (hg : current.Shows g) : isBetter .score candidate current = true ↔ f.Beats g := by
  rw [Finding.Beats, isBetter, compareBy, hf.score, hg.score, Node.level, Node.level, hf.levels, hg.levels,
    beq_iff_eq, Ordering.then_eq_gt, compare_gt_iff_gt]
  unfold compareScores
  rcases lt_trichotomy f.score g.score with hlt | he | hlt
  · simp [hlt, hlt.not_gt, hlt.ne']
  · simp [he]
  · simp [hlt, hlt.not_gt, hlt.ne]

theorem track_objective (p : Progress) (s : SolutionSpace) (v : Nat) :
    (p.track s v).objective = p.objective := by
  rw [track_eq]

theorem track_cases {s : SolutionSpace} {p : Progress} (hp : p.objective = .score)
    (hs : s.predictable = false) (hsettled : ∀ o ∈ p.optimum, s.Settled o) {v : Nat} {f : Finding}
    (hf : s.Shows v f) :
    (p.track s v).optimum = p.optimum ∧ (f.anonymous = true →
        ∃ o ∈ p.optimum, ∃ g, s.Shows o g ∧ g.Outscores f) ∨
      (p.track s v).optimum = some v ∧ f.anonymous = true ∧
        ∀ o ∈ p.optimum, ∀ g, s.Shows o g → f.Beats g := by
  obtain ⟨candidate, (hcandidate : s.node? v = some candidate), hshows⟩ := id hf
  have hchecked : s.has v Mark.checked = true := by
    rw [SolutionSpace.has_checked, hf.marked_checked]
  have hverdict : s.has v Mark.anonymous = f.anonymous := by
    rw [SolutionSpace.has_eq, hs, Bool.false_and, Bool.or_false, hf.marked_anonymous]
  have hnodes : ∀ o ∈ p.optimum, ∃ current, s.node? o = some current := by
    intro o ho
    obtain ⟨g, current, hcurrent, -⟩ := hsettled o ho
    exact ⟨current, hcurrent⟩
  have hiff : ∀ current g, current.Shows g →
      (isBetter p.objective candidate current = true ↔ f.Beats g) := by
    intro current g hg
    rw [hp, isBetter_score_iff hshows hg]
  rw [← hverdict]
  rcases track_node hcandidate hchecked hnodes with
    ⟨hkept, hbest⟩ | ⟨hnew, hanonymous, hbest⟩
  · refine Or.inl ⟨congrArg optimum hkept, fun hanonymous => ?_⟩
    obtain ⟨o, ho, current, hcurrent, hworse⟩ := hbest hanonymous
    obtain ⟨g, hg⟩ := hsettled o ho
    obtain ⟨node, (hnode : s.node? o = some node), hshown⟩ := id hg
    obtain rfl : current = node := Option.some.inj (hcurrent.symm.trans hnode)
    exact ⟨o, ho, g, hg, Finding.not_beats.mp (mt (hiff current g hshown).mpr (by simp [hworse]))⟩
  · refine Or.inr ⟨congrArg optimum hnew, hanonymous, ?_⟩
    rintro o ho g ⟨current, hcurrent, hshown⟩
    exact (hiff current g hshown).mp (hbest o ho current hcurrent)

/-- Comparing a settled transformation with the optimum leaves the one that outscores the
other. -/
theorem track_leads {s : SolutionSpace} {p : Progress} {seen : List Nat}
    (h : s.Leads seen p.optimum) (ho : p.objective = .score) (hs : s.predictable = false) {v : Nat}
    (hv : s.Settled v) : s.Leads (seen ++ [v]) (p.track s v).optimum := by
  obtain ⟨f, hf⟩ := hv
  have hsettled : ∀ o ∈ p.optimum, s.Settled o := fun o ho => h.settled (h.found o ho).1
  rcases track_cases ho hs hsettled hf with ⟨htrack, hbest⟩ | ⟨htrack, hanonymous, hbest⟩
  · rw [htrack]
    exact h.stay hf hbest
  · rw [htrack]
    exact h.replace hf hanonymous fun o ho k hk => (hbest o ho k hk).outscores

end Progress

namespace PrivateWalk

/-- A state of a walk that has compared each of the given transformations with its optimum. -/
structure Compared (seen : List Nat) (x : Exploration) : Prop where
  objective : x.progress.objective = .score
  predictable : x.space.predictable = false
  leads : x.space.Leads seen x.progress.optimum

theorem steady_optimum (optimum : Option Nat) (objective : Objective) : Steady fun x =>
    x.progress.optimum = optimum ∧ x.progress.objective = objective where
  visited _ := keeps_onSpace fun _ _ h _ => h
  mark _ _ _ := keeps_onSpace fun _ _ h _ => h
  assureChecked _ := keeps_check (fun _ h => h) fun _ _ h => h

section
variable {seen : List Nat} {x y : Exploration}

/-- Listing neighbours and checking them keeps whatever is said about the optimum that stays true
when more is found out. -/
theorem steady_tracked {Q : SolutionSpace → Option Nat → Prop}
    (hQ : ∀ s after optimum, (∀ v f, s.Shows v f → after.Shows v f) → Q s optimum →
      Q after optimum) :
    Steady fun x => x.progress.objective = .score ∧ x.space.predictable = false ∧
      Q x.space x.progress.optimum := by
  have hkeeps : ∀ {m : Exploring Unit}, (∀ P, Steady P → Keeps P m) →
      Keeps (fun x => x.progress.objective = .score ∧ x.space.predictable = false ∧
        Q x.space x.progress.optimum) m := by
    rintro m hm x ⟨hscore, hpredictable, hq⟩
    obtain ⟨hoptimum, hobjective⟩ := hm _
      (steady_optimum x.progress.optimum x.progress.objective) x ⟨rfl, rfl⟩
    refine ⟨hobjective.trans hscore,
      hm _ (stable_predictable false).toSteady x hpredictable, ?_⟩
    rw [hoptimum]
    exact hQ _ _ _ (fun v f => hm _ (stable_shows v f).toSteady x) hq
  exact ⟨fun id => hkeeps fun P hP => hP.visited id,
    fun id new hnew => hkeeps fun P hP => hP.mark id new hnew,
    fun id => hkeeps fun P hP => hP.assureChecked id⟩

theorem steady_compared (seen : List Nat) : Steady (Compared seen) := by
  have hiff : (fun x : Exploration => x.progress.objective = .score ∧
      x.space.predictable = false ∧ x.space.Leads seen x.progress.optimum) = Compared seen :=
    funext fun x => propext
      ⟨fun h => ⟨h.1, h.2.1, h.2.2⟩, fun h => ⟨h.objective, h.predictable, h.leads⟩⟩
  rw [← hiff]
  exact steady_tracked (Q := fun s optimum => s.Leads seen optimum)
    fun _ _ _ hshows h => h.mono hshows

theorem steady_settled (v : Nat) : Steady fun x => x.space.Settled v where
  visited id := fun x ⟨f, hf⟩ => ⟨f, (stable_shows v f).visited id x hf⟩
  mark id new hnew := fun x ⟨f, hf⟩ => ⟨f, (stable_shows v f).mark id new hnew x hf⟩
  assureChecked id := fun x ⟨f, hf⟩ => ⟨f, (stable_shows v f).assureChecked id x hf⟩

theorem Collected.settled {ids : List Nat} {pool last : Pool} (h : Collected ids pool x last y)
    (ho : x.progress.objective = .score) (hp : ∀ k ∈ pool.keys, x.space.Settled k) :
    ∀ k ∈ last.keys, y.space.Settled k := by
  induction h with
  | nil => exact hp
  | known _ _ ih => exact ih ho hp
  | @new id rest pool last x checked visited y score _ hcheck hvisit _ _ ih =>
    have hkept : ∀ P, Steady P → P x → P visited := fun P hP hx =>
      (hP.visited id).of_run hvisit ((hP.assureChecked id).of_run hcheck hx)
    apply ih
    · exact (hkept _ (steady_optimum x.progress.optimum _) ⟨rfl, ho⟩).2
    · intro k hk
      rcases Pool.mem_keys_insert.mp hk with rfl | hk
      · have hchecked := settled_assureChecked hcheck ho
        exact ((steady_settled k).visited k).of_run hvisit hchecked
      · exact hkept _ (steady_settled k) (hp k hk)

theorem settled_expand {pivot : Nat} {pool last : Pool}
    (h : run (expand pivot pool) x = (.ok last, y)) (ho : x.progress.objective = .score)
    (hp : ∀ k ∈ pool.keys, x.space.Settled k) : ∀ k ∈ last.keys, y.space.Settled k := by
  obtain ⟨ids, marked, collected, hmark, hcollected, rfl, -⟩ := expand_ok h
  have hkept : ∀ P, Steady P → P x → P marked := fun P hP hx =>
    (hP.mark pivot _ (Or.inl rfl)).of_run hmark hx
  intro k hk
  apply hcollected.settled ?_ ?_ k (Pool.mem_keys_erase.mp hk).1
  · exact (hkept _ (steady_optimum x.progress.optimum _) ⟨rfl, ho⟩).2
  · intro k hk
    exact hkept _ (steady_settled k) (hp k hk)

theorem Compared.track (h : Compared seen x) {v : Nat} (hv : x.space.Settled v) :
    Compared (seen ++ [v]) { x with progress := x.progress.track x.space v } :=
  ⟨(x.progress.track_objective x.space v).trans h.objective, h.predictable,
    Progress.track_leads h.leads h.objective h.predictable hv⟩

theorem Compared.halt (h : Compared seen x) (source : RandomSource) :
    Compared seen (halt { x with source }) :=
  ⟨h.objective, h.predictable, h.leads⟩

variable (clock : Nat → Nat) (epsilon : Float) (steps time pivot : Nat) (pool : Pool)

/-- However a walk ends, its optimum has been compared with all that was drawn. -/
theorem compared_course (h : Compared seen x) (hp : ∀ k ∈ pool.keys, x.space.Settled k) :
    Compared (seen ++ (course clock epsilon steps time pivot pool x).drawn)
      (course clock epsilon steps time pivot pool x).last := by
  induction steps generalizing seen time pivot pool x with
  | zero =>
    rw [course, List.append_nil]
    exact h.halt x.source
  | succ steps ih =>
    have hexpanded := keeps_expand (steady_compared seen) pivot pool
    unfold course
    rcases hturn : turn epsilon pivot pool x with ⟨ending, y⟩ | ⟨next, last, y⟩
    · rw [List.append_nil]
      rcases turn_ended hturn with
        ⟨failure, -, hexpand⟩ | ⟨-, last, z, source, hexpand, rfl, -⟩
      · exact hexpanded.of_run hexpand h
      · exact (hexpanded.of_run hexpand h).halt source
    · obtain ⟨z, source, hexpand, hnext, rfl⟩ := turn_drawn hturn
      have hsettled := settled_expand hexpand h.objective hp
      have htracked := (hexpanded.of_run hexpand h).track (hsettled next hnext)
      have hdrawn : Compared (seen ++ [next]) { z with
          checker := z.checker.count Counters.draw
          progress := z.progress.track z.space next
          source } := ⟨htracked.objective, htracked.predictable, htracked.leads⟩
      dsimp only
      split_ifs
      · exact hdrawn.halt source
      · have hrest := ih (time + 1) next last hdrawn hsettled
        rwa [List.append_assoc] at hrest

omit time pivot pool in
theorem compared_courseFromTop {l : Lattice} (hl : x.space.lattice = l) (h : Compared [] x) :
    (∃ failure, (courseFromTop clock epsilon steps x).ending = .failed failure) ∨
      Compared (l.top :: (courseFromTop clock epsilon steps x).drawn)
        (courseFromTop clock epsilon steps x).last := by
  rcases courseFromTop_cases clock epsilon steps hl with
    ⟨failure, y, -, hcourse⟩ | ⟨y, hrun, -, hcourse⟩ <;> rw [hcourse]
  · exact Or.inl ⟨failure, rfl⟩
  · right
    have hchecked := ((steady_compared []).assureChecked l.top).of_run hrun h
    have htracked := hchecked.track (settled_assureChecked hrun h.objective)
    exact compared_course clock epsilon steps 0 l.top [] htracked
      fun k hk => absurd hk List.not_mem_nil

section
variable {l : Lattice} (hl : x.space.lattice = l)
  (hended : (courseFromTop clock epsilon steps x).ending = .exhausted)
include hl hended

omit time pivot pool in
theorem mem_courseFromTop_iff {v : Nat} :
    v ∈ l.top :: (courseFromTop clock epsilon steps x).drawn ↔ v < l.size := by
  rw [List.mem_cons]
  constructor
  · rintro (rfl | hv)
    · exact l.top_lt_size
    · have hcount := count_courseFromTop clock epsilon steps hl
      exact (Lattice.lt_top_of_mem hcount hv).trans l.top_lt_size
  · intro hv
    by_cases htop : v = l.top
    · exact Or.inl htop
    · right
      apply covers_courseFromTop clock epsilon steps hl hended
      unfold Lattice.top at htop ⊢
      omega

omit time pivot pool in
theorem leading_courseFromTop (h : Compared [] x)
    (hlast : (courseFromTop clock epsilon steps x).last.space.lattice = l) :
    (courseFromTop clock epsilon steps x).last.space.Leading
      (courseFromTop clock epsilon steps x).last.progress.optimum := by
  rcases compared_courseFromTop clock epsilon steps hl h with ⟨failure, hfailed⟩ | hcompared
  · cases hended.symm.trans hfailed
  · apply hcompared.leads.leading
    intro v
    rw [hlast]
    exact mem_courseFromTop_iff clock epsilon steps hl hended

end
end
end PrivateWalk

/-! ## Whole searches -/

namespace Search

theorem objective_ofSettings {settings : SearchSettings} {entropy : RandomSource} {s : Search}
    {epsilon perStep : Float} {steps : Nat} (h : ofSettings settings entropy = .ok s)
    (hplan : s.plan = .privateWalk epsilon perStep steps) : s.progress.objective = .score := by
  rw [(new_ok h).1, hplan]
  rfl

theorem compared_begun {s : Search} {epsilon perStep : Float} {steps : Nat}
    (hplan : s.plan = .privateWalk epsilon perStep steps) (hnone : s.progress.optimum = none)
    (hobjective : s.progress.objective = .score) (checker : Checker) (space : SolutionSpace) :
    PrivateWalk.Compared [] (s.begun checker space) := by
  unfold begun
  rw [hplan]
  have hoptimum : s.progress.start.optimum = none := hnone
  refine ⟨hobjective, rfl, ?_⟩
  dsimp only
  rw [hoptimum]
  exact SolutionSpace.leads_nil _

theorem rated_ended {c checker : Checker} {space : SolutionSpace} (hc : c.Serves space.lattice)
    (hleft : LeftBehind c space.lattice checker space) (s : Search) (clock : Nat → Nat)
    (hfits : (s.ended clock checker space).Fits) :
    (s.ended clock checker space).space.Truthful c ∧
      (s.ended clock checker space).space.Scored c := by
  have hbegun := fits_of_ended hfits
  obtain ⟨hprecedes, -, htruthful⟩ := hleft.inherits hc hbegun
  have hagrees := hprecedes.agrees
  have hrated := s.keeps_ended (stable_rated (hc.precedes hprecedes hbegun)) clock
    (s.rated_begun (htruthful.agrees hagrees) ((hleft.scored hc hbegun).agrees hagrees))
  exact ⟨(hrated.sane.truthful hfits).agrees hagrees.symm,
    (hrated.scored hfits).agrees hagrees.symm⟩

/-- A traversal by a private walk never draws the top, and draws anything else at most as often as
there are ways down to it, so only so many steps can be taken. A traversal that ends for want of
candidates has drawn everything below the top. If the search is new, its optimum then leads the
whole space by what the checks found, and by scans of all records as long as these fit into
snapshots. -/
theorem walk_exhaustion {s : Search} {epsilon perStep : Float} {steps : Nat}
    (hplan : s.plan = .privateWalk epsilon perStep steps) (clock : Nat → Nat) (checker : Checker)
    (space : SolutionSpace) :
    let l := space.lattice
    let course := PrivateWalk.courseFromTop clock perStep steps (s.begun checker space)
    ((s.traverse clock checker space).1 = course.ending.answer ∧
      s.ended clock checker space = course.last ∧
      course.last.checker.counters.mechanismDraws =
        checker.counters.mechanismDraws + course.drawn.length) ∧
    (l.top ∉ course.drawn ∧
      (∀ v < l.size, course.drawn.count v ≤ (l.descents v).ncard) ∧
      course.drawn.length ≤ ∑ v ∈ Finset.range l.top, (l.descents v).ncard ∧
      (course.ending = .spent → course.drawn.length = steps)) ∧
    (course.ending = .exhausted → (∀ v < l.top, v ∈ course.drawn) ∧
      ∀ searching entropy, ofSettings searching entropy = .ok s →
        course.last.space.lattice = l ∧
        course.last.space.Leading course.last.progress.optimum ∧
        ∀ d criteria metric settings c, d.Accepted → d.records < 2 ^ 32 →
          Checker.create d criteria metric settings = .ok c →
          Lattice.ofBounds d.minLevels d.maxLevels = .ok l → LeftBehind c l checker space →
          course.last.Fits → c.Leading l course.last.progress.optimum) := by
  intro l course
  obtain ⟨hanswer, hended⟩ := PrivateWalk.ended_course hplan clock checker space
  have hlattice : (s.begun checker space).space.lattice = l := by
    unfold begun
    cases s.plan <;> rfl
  have hlast : course.last.space.lattice = l := by
    rw [← hended]
    exact s.keeps_ended (PrivateWalk.stable_lattice l) clock hlattice
  have hdraws : course.last.checker.counters.mechanismDraws =
      checker.counters.mechanismDraws + course.drawn.length := by
    have hbegun : PrivateWalk.draws (s.begun checker space) =
        checker.counters.mechanismDraws := by
      unfold PrivateWalk.draws begun
      cases s.plan <;> rfl
    rw [← hbegun]
    exact PrivateWalk.draws_courseFromTop clock perStep steps (s.begun checker space)
  have hcount := PrivateWalk.count_courseFromTop clock perStep steps hlattice
  have htop : l.top ∉ course.drawn := fun hmem => (Lattice.lt_top_of_mem hcount hmem).false
  have hways : ∀ v < l.size, course.drawn.count v ≤ (l.descents v).ncard := fun v hv =>
    List.count_le_count_cons.trans (Lattice.count_le_ncard_descents hcount hv)
  refine ⟨⟨hanswer, hended, hdraws⟩, ⟨htop, hways, Lattice.length_le_sum_descents hcount,
    PrivateWalk.length_courseFromTop_spent clock perStep steps⟩, ?_⟩
  intro hexhausted
  have hcovers : ∀ v < l.top, v ∈ course.drawn := fun v hv =>
    PrivateWalk.covers_courseFromTop clock perStep steps hlattice hexhausted hv
  refine ⟨hcovers, fun searching entropy hs => ?_⟩
  have hbegun := compared_begun hplan (optimum_ofSettings hs) (objective_ofSettings hs hplan)
    checker space
  have hleading : course.last.space.Leading course.last.progress.optimum :=
    PrivateWalk.leading_courseFromTop clock perStep steps hlattice hexhausted hbegun hlast
  refine ⟨hlast, hleading, ?_⟩
  intro d criteria metric settings c hd hrecords hc hl hleft hfits
  rw [← hended] at hfits
  obtain ⟨htruthful, hscored⟩ :=
    rated_ended (Checker.serves_create hd hrecords hc hl) hleft s clock hfits
  rw [hended] at htruthful hscored
  have htrue := hleading.truthful htruthful hscored
  rwa [hlast] at htrue

end Search

namespace Sample

open PrivateWalk

/-- The walk of the sample once the top is checked and compared. -/
def atTop : Exploration :=
  let x := (run (assureChecked 1) (walk.begun (checker keeping) (.ofLattice lattice))).2
  { x with progress := x.progress.track x.space 1 }

/-- The candidates below the top, and the walk once the bottom is drawn from them. -/
def atBottom : Pool × Exploration :=
  let result := run (expand 1 []) atTop
  let x := result.2
  (result.1.toOption.getD [], { x with
    checker := x.checker.count Counters.draw
    progress := x.progress.track x.space 0
    source := x.source.next.2 })

theorem turn_top (epsilon : Float) :
    turn epsilon 1 [] atTop = .drawn 0 atBottom.1 atBottom.2 := by
  have hkeys : (run (expand 1 []) atTop).1.toOption.map Pool.keys = some [0] := by decide +kernel
  rcases hexpand : run (expand 1 []) atTop with ⟨failure | pool, x⟩ <;> rw [hexpand] at hkeys
  · cases hkeys
  · have hfinite := finite_expand hexpand fun _ hentry => nomatch hentry
    obtain ⟨⟨key, score⟩, rfl, hkey⟩ := List.map_eq_singleton_iff.mp (Option.some.inj hkeys)
    cases hkey
    have hselect : Mechanism.select ⟨epsilon, x.source⟩ [(0, score)] = _ :=
      Mechanism.select_single (hfinite (0, score) (List.mem_singleton_self _))
    unfold turn atBottom
    rw [hexpand]
    dsimp only
    rw [hselect]
    rfl

theorem turn_bottom (epsilon : Float) : turn epsilon 0 atBottom.1 atBottom.2 =
    .ended .exhausted (halt (run (expand 0 atBottom.1) atBottom.2).2) := by
  have hkeys : (run (expand 0 atBottom.1) atBottom.2).1.toOption.map Pool.keys = some [] := by
    decide +kernel
  rcases hexpand : run (expand 0 atBottom.1) atBottom.2 with ⟨failure | pool, x⟩ <;>
    rw [hexpand] at hkeys
  · cases hkeys
  · have hempty : pool = [] := List.map_eq_nil_iff.mp (Option.some.inj hkeys)
    unfold turn
    rw [hexpand, hempty]
    rfl

/-- The walk of the sample draws the bottom and ends there, before its steps are spent. -/
theorem course_eq : courseFromTop surroundings.clock perStep 5
    (walk.begun (checker keeping) (.ofLattice lattice)) =
      ⟨[0], .exhausted, halt (run (expand 0 atBottom.1) atBottom.2).2⟩ := by
  have hchecked : (run (assureChecked 1) (walk.begun (checker keeping)
      (.ofLattice lattice))).1.toOption = some () := by decide +kernel
  have hstop : ¬atBottom.2.progress.mustStop (surroundings.clock 0) = true := by decide +kernel
  have hcourse : course surroundings.clock perStep 5 0 1 [] atTop =
      ⟨[0], .exhausted, halt (run (expand 0 atBottom.1) atBottom.2).2⟩ := by
    unfold course
    rw [turn_top]
    dsimp only
    rw [if_neg hstop]
    unfold course
    rw [turn_bottom]
  rw [← hcourse]
  have htop : lattice.top = 1 := by decide
  rcases courseFromTop_cases surroundings.clock perStep 5
      (x := walk.begun (checker keeping) (.ofLattice lattice)) (l := lattice) rfl with
    ⟨failure, x, hrun, -⟩ | ⟨x, hrun, -, h⟩ <;> rw [htop] at hrun
  · rw [hrun] at hchecked
    cases hchecked
  · rw [h, htop]
    unfold atTop
    rw [hrun]

end Sample

namespace Search

open Sample in
/-- The top of the sample is all that is anonymous. -/
theorem walk_exhaustion_sample :
    (walk.traverse surroundings.clock (checker keeping) (.ofLattice lattice)).1 = .ok false ∧
      (walk.ended surroundings.clock (checker keeping)
        (.ofLattice lattice)).checker.counters.mechanismDraws = 1 ∧
      1 ≤ (lattice.descents 0).ncard ∧
      (walk.ended surroundings.clock (checker keeping)
        (.ofLattice lattice)).space.Leading (some 1) ∧
      (checker keeping).Leading lattice (some 1) := by
  obtain ⟨⟨hanswer, hended, hdraws⟩, ⟨-, hcount, -⟩, hexhausted⟩ :=
    walk_exhaustion (show walk.plan = .privateWalk 1.0 perStep 5 from rfl) surroundings.clock
      (checker keeping) (.ofLattice lattice)
  rw [course_eq] at hanswer hended hdraws hcount hexhausted
  have hoptimum : (PrivateWalk.halt (run (PrivateWalk.expand 0 atBottom.1)
      atBottom.2).2).progress.optimum = some 1 := by decide +kernel
  obtain ⟨-, hleading, htrue⟩ := (hexhausted rfl).2 walking (.ofSeed 0) walk_eq
  have hhighest := htrue dataset _ _ keeping (checker keeping) dataset_accepted (by decide)
    (checker_eq keeping) lattice_eq .new (show _ < _ by decide +kernel)
  rw [hoptimum] at hleading hhighest
  rw [hended]
  exact ⟨hanswer, hdraws, hcount 0 (by decide), hleading, hhighest⟩

end Search

end Recoding
