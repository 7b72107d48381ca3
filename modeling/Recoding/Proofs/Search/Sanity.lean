import Recoding.Proofs.Search.Achieved

/-!
# Sane searches

However a search runs, its checker stays faithful and its space truthful, and the optimum is
always a checked anonymous transformation.
-/

namespace Recoding

namespace Progress

/-- Only a checked transformation that is held to be anonymous becomes the optimum. -/
theorem optimum_track (p : Progress) (s : SolutionSpace) (id : Nat) :
    (p.track s id).optimum = p.optimum ∨ (p.track s id).optimum = some id ∧
      s.has id Mark.checked = true ∧ s.has id Mark.anonymous = true := by
  unfold track
  split
  · exact Or.inl rfl
  · split_ifs with hchecked
    · rw [Bool.and_eq_true] at hchecked
      split
      · exact Or.inr ⟨rfl, hchecked⟩
      · split_ifs
        · exact Or.inr ⟨rfl, hchecked⟩
        · exact Or.inl rfl
    · exact Or.inl rfl

end Progress

namespace Exploration

/-- A state of a search over a lattice that has started with a checker and perhaps with an
optimum. As long as it fits, its space is truthful and its own optimum is anonymous. -/
structure Sane (c : Checker) (l : Lattice) (first : Option Nat) (x : Exploration) : Prop where
  precedes : c.Precedes x.checker
  lattice : x.space.lattice = l
  predictable : x.space.predictable = true → c.criteria.all Criterion.isMonotone = true
  truthful : x.Fits → x.space.Truthful c
  optimum : x.Fits → x.progress.optimum = first ∨ ∃ id, x.progress.optimum = some id ∧
    x.space.marked id Mark.checked = true ∧ c.anonymousAt (l.levelsAt id) = true

section
variable {c : Checker} {l : Lattice} {first : Option Nat} {x : Exploration}

theorem Sane.fits_of_precedes {y : Exploration} (h : x.checker.Precedes y.checker)
    (hy : y.Fits) : x.Fits :=
  lt_of_le_of_lt h.extends_dictionary.size_le hy

/-- The space may be replaced by one that is as truthful and has checked as much. -/
theorem Sane.withSpace (h : Sane c l first x) {space : SolutionSpace}
    (hlattice : space.lattice = x.space.lattice)
    (hpredictable : space.predictable = x.space.predictable)
    (hspace : x.space.Truthful c → space.Truthful c ∧ ∀ id,
      x.space.marked id Mark.checked = true → space.marked id Mark.checked = true) :
    Sane c l first { x with space } where
  precedes := h.precedes
  lattice := hlattice.trans h.lattice
  predictable hp := h.predictable (hpredictable ▸ hp)
  truthful hfits := (hspace (h.truthful hfits)).1
  optimum hfits := by
    rcases h.optimum hfits with hfirst | ⟨id, hid, hchecked, hanonymous⟩
    · exact Or.inl hfirst
    · exact Or.inr ⟨id, hid, (hspace (h.truthful hfits)).2 id hchecked, hanonymous⟩

theorem Sane.withChecker (h : Sane c l first x) {checker : Checker}
    (hp : x.checker.Precedes checker) : Sane c l first { x with checker } where
  precedes := h.precedes.trans hp
  lattice := h.lattice
  predictable := h.predictable
  truthful hfits := h.truthful (Sane.fits_of_precedes hp hfits)
  optimum hfits := h.optimum (Sane.fits_of_precedes hp hfits)

theorem Sane.withSource (h : Sane c l first x) (source : RandomSource) :
    Sane c l first { x with source } :=
  ⟨h.precedes, h.lattice, h.predictable, h.truthful, h.optimum⟩

theorem Sane.withProgress (h : Sane c l first x) {progress : Progress}
    (hp : progress.optimum = x.progress.optimum) : Sane c l first { x with progress } :=
  ⟨h.precedes, h.lattice, h.predictable, h.truthful, by rw [hp]; exact h.optimum⟩

theorem keeps_modify {f : Node → Node} {id : Nat} (visited : List Nat)
    (hf : ∀ s after : SolutionSpace, s.Indexed → id < s.lattice.size →
      s.modify id f = .ok after → s.Follows after visited) :
    Keeps (Sane c l first) (onSpace (·.modify id f)) := by
  refine keeps_onSpace fun x space h hspace => ?_
  obtain ⟨node, hnode, rfl⟩ := map_eq_ok.mp hspace
  refine h.withSpace rfl rfl fun ht => ?_
  have hid : id < x.space.lattice.size := by
    by_contra hid
    unfold SolutionSpace.nodeOrUnknown at hnode
    cases hsome : x.space.node? id with
    | some node => exact hid (Lattice.levelsOf_ok (ht.indexed id node hsome)).1
    | none =>
      rw [hsome] at hnode
      simp [Lattice.levelsOf, hid] at hnode
  have hfollows := hf x.space _ ht.indexed hid hspace
  exact ⟨ht.follows hfollows, fun other hother => by rw [hfollows.checked]; exact hother⟩

theorem keeps_visited (id : Nat) :
    Keeps (Sane c l first) (onSpace (·.mark id Mark.visited)) :=
  keeps_modify [id] fun s after hs hid h => by
    obtain ⟨_, hmark, hfollows⟩ := SolutionSpace.mark_visited_ok hs
      (Lattice.levelsOf_levelsAt hid)
    cases hmark.symm.trans h
    exact hfollows

theorem keeps_mark (id : Nat) {new : Nat}
    (hn : new = Mark.expanded ∨ new = Mark.successorsPruned) :
    Keeps (Sane c l first) (onSpace (·.mark id new)) :=
  keeps_modify [] fun s after hs hid h => by
    obtain ⟨_, hmark, hfollows⟩ := SolutionSpace.mark_ok hs (Lattice.levelsOf_levelsAt hid) hn
    cases hmark.symm.trans h
    exact hfollows

theorem keeps_bound (id : Nat) (bound : Loss) :
    Keeps (Sane c l first) (onSpace (·.bound id bound)) :=
  keeps_modify [] fun s after hs hid h => by
    obtain ⟨_, hbound, hfollows⟩ := SolutionSpace.bound_ok hs (Lattice.levelsOf_levelsAt hid)
      bound
    cases hbound.symm.trans h
    exact hfollows

theorem keeps_count (f : Counters → Counters) : Keeps (Sane c l first) (count f) :=
  fun x h => h.withChecker (x.checker.precedes_count f)

variable (hc : c.Serves l)
include hc

theorem Sane.serves (h : Sane c l first x) (hfits : x.Fits) : x.checker.Serves x.space.lattice :=
  h.lattice ▸ hc.precedes h.precedes hfits

theorem Sane.check (h : Sane c l first x) (id : Nat) (objective : Objective) :
    Sane c l first { x with
      checker := (x.checker.check x.space id false objective).2.1
      space := (x.checker.check x.space id false objective).2.2 } := by
  have hcovers : x.checker.dataset.Covers x.space.lattice := by
    rw [h.precedes.agrees.dataset, h.lattice]
    exact hc.covers
  have hprecedes := Checker.precedes_check hcovers id false objective
  have hframe := SolutionSpace.check_frame x.checker x.space id false objective
  have hlearned : x.Fits → (x.checker.check x.space id false objective).2.2.Truthful c ∧
      ∀ other, x.space.marked other Mark.checked = true →
        (x.checker.check x.space id false objective).2.2.marked other Mark.checked = true := by
    intro hfits
    obtain ⟨htruthful, hchecked⟩ := ((h.truthful hfits).agrees h.precedes.agrees).after_check
      (h.serves hc hfits).faithful hcovers id false objective
    exact ⟨htruthful.agrees h.precedes.agrees.symm, hchecked⟩
  refine ⟨h.precedes.trans hprecedes, hframe.1.trans h.lattice,
    fun hp => h.predictable (hframe.2 ▸ hp),
    fun hfits => (hlearned (Sane.fits_of_precedes hprecedes hfits)).1, fun hfits => ?_⟩
  have hfits := Sane.fits_of_precedes hprecedes hfits
  rcases h.optimum hfits with hfirst | ⟨best, hbest, hchecked, hanonymous⟩
  · exact Or.inl hfirst
  · exact Or.inr ⟨best, hbest, (hlearned hfits).2 best hchecked, hanonymous⟩

theorem keeps_assureChecked (id : Nat) : Keeps (Sane c l first) (assureChecked id) :=
  keeps_check (fun x h => h.check hc id x.progress.objective) fun _ _ h => h.withProgress rfl

theorem keeps_track (id : Nat) : Keeps (Sane c l first) (track id) := by
  intro x h
  show Sane c l first { x with progress := x.progress.track x.space id }
  refine ⟨h.precedes, h.lattice, h.predictable, h.truthful, fun hfits => ?_⟩
  dsimp only
  rcases Progress.optimum_track x.progress x.space id with hsame | ⟨hid, hchecked, hanonymous⟩
  · rw [hsame]
    exact h.optimum hfits
  · rw [SolutionSpace.has_checked] at hchecked
    refine Or.inr ⟨id, hid, hchecked, ?_⟩
    rw [← h.lattice]
    exact (h.truthful hfits).has_anonymous hc.faithful.wellFormed hc.ready
      (h.lattice ▸ hc.covers) h.predictable hanonymous

omit hc in
theorem keeps_finish (proved : Bool) : Keeps (Sane c l first) (finish proved) :=
  fun _ h => h.withProgress rfl

theorem stable_sane : Stable (Sane c l first) where
  visited := keeps_visited
  mark id _ hn := keeps_mark id hn
  bound := keeps_bound
  count := keeps_count
  assureChecked := keeps_assureChecked hc
  track := keeps_track hc
  source _ source h := h.withSource source
  finish := keeps_finish

end
end Exploration

open Exploration

/-! ## Traversals -/

def SearchPlan.objective : SearchPlan → Objective
  | .bestFirst => .loss
  | .privateWalk _ _ _ => .score

/-- A new search has made no progress towards the objective of its plan, and only private walks
search for scores. -/
theorem Search.new_ok {settings : SearchSettings} {entropy : RandomSource} {s : Search}
    (h : Search.ofSettings settings entropy = .ok s) :
    s.progress = .initial settings s.plan.objective ∧
      (s.plan.objective = .score → settings.method = .privateWalk) := by
  unfold ofSettings at h
  cases hmethod : settings.method with
  | bestFirst =>
    rw [hmethod] at h
    cases h
    exact ⟨rfl, fun ho => nomatch ho⟩
  | privateWalk =>
    rw [hmethod] at h
    obtain ⟨perStep, -, h⟩ := bind_eq_ok.mp h
    cases h
    exact ⟨rfl, fun _ => rfl⟩

theorem Search.optimum_ofSettings {settings : SearchSettings} {entropy : RandomSource}
    {s : Search} (h : Search.ofSettings settings entropy = .ok s) :
    s.progress.optimum = none := by
  rw [(Search.new_ok h).1]
  rfl

theorem Search.sane_begun {c : Checker} {space : SolutionSpace} (ht : space.Truthful c) (s : Search) :
    Sane c space.lattice s.progress.optimum (s.begun c space) := by
  unfold begun
  cases s.plan with
  | bestFirst =>
    exact ⟨Checker.Precedes.refl c, rfl, fun h => h, fun _ => ht.setPredictable _,
      fun _ => Or.inl rfl⟩
  | privateWalk epsilon perStep steps =>
    exact ⟨c.precedes_setRetention .all, rfl, fun h => (nomatch h),
      fun _ => ht.setPredictable _, fun _ => Or.inl rfl⟩

theorem Search.sane_ended {c : Checker} {l : Lattice} (hc : c.Serves l) {space : SolutionSpace}
    (hspace : space.lattice = l) (ht : space.Truthful c) (s : Search) (clock : Nat → Nat) :
    Sane c l s.progress.optimum (s.ended clock c space) :=
  s.keeps_ended (stable_sane hc) clock (hspace ▸ s.sane_begun ht)

end Recoding
