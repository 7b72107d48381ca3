import Recoding.Proofs.Check.Transparency
import Recoding.Proofs.Search.Knowledge

/-!
# Soundness of predictions

Under monotone criteria, what a space says of a transformation is what a scan of all records
finds there, whether or not that transformation was ever checked.
-/

namespace Recoding

theorem Criterion.isMonotone_prepare {raw c : Criterion} {d : Dataset}
    (h : raw.prepare d = .ok c) : c.isMonotone = raw.isMonotone := by
  cases raw with
  | inclusion size =>
    rw [← Except.ok.inj h]
    rfl
  | kAnonymity k =>
    rw [prepare] at h
    split_ifs at h
    rw [← Except.ok.inj h]
  | distinctDiversity l =>
    rw [prepare] at h
    split_ifs at h
    rw [← Except.ok.inj h]
  | profitability attacker payoffs shares floor =>
    rw [← Except.ok.inj h]
    rfl

namespace Checker

theorem all_isMonotone_create {d : Dataset} {criteria : List Criterion} {metric : Metric}
    {settings : CheckerSettings} {c : Checker} (h : create d criteria metric settings = .ok c)
    (hm : criteria.all Criterion.isMonotone = true) :
    c.criteria.all Criterion.isMonotone = true := by
  obtain ⟨prepared, hprepared, h⟩ := bind_eq_ok.mp h
  obtain ⟨measured, -, h⟩ := bind_eq_ok.mp h
  cases h
  have hall := Dataset.forall₂_mapM hprepared
  rw [List.all_eq_true] at hm ⊢
  intro criterion hcriterion
  obtain ⟨i, hi, rfl⟩ := List.getElem_of_mem hcriterion
  have hraw : i < criteria.length := by rwa [hall.length_eq]
  have hprepare : (criteria[i]).prepare d = .ok prepared[i] := hall.get hraw hi
  exact (Criterion.isMonotone_prepare hprepare).trans (hm _ (List.getElem_mem hraw))

/-- What is asked of a checker that works on one solution space. -/
inductive Request where
  | check (id : Nat) (fromRecords : Bool) (objective : Objective)
  | setRetention (retention : Retention)

/-- The checker and its space after a request, whether or not the request has succeeded. -/
def serve (state : Checker × SolutionSpace) : Request → Checker × SolutionSpace
  | .check id fromRecords objective => (state.1.check state.2 id fromRecords objective).2
  | .setRetention retention => (state.1.setRetention retention, state.2)

/-- A checker and its space that a checker and a new space have become. -/
structure Informed (c : Checker) (l : Lattice) (state : Checker × SolutionSpace) : Prop where
  precedes : c.Precedes state.1
  lattice : state.2.lattice = l
  predictable : state.2.predictable = true
  truthful : state.1.history.dictionary.size < 2 ^ 32 → state.2.Truthful c

theorem informed_new (c : Checker) (l : Lattice) : c.Informed l (c, .ofLattice l) :=
  ⟨Precedes.refl c, rfl, rfl, fun _ => SolutionSpace.truthful_ofLattice l c⟩

section
variable {c : Checker} {l : Lattice} (hc : c.Faithful) (hl : c.dataset.Covers l)
include hc hl

theorem Informed.serve {state : Checker × SolutionSpace} (h : c.Informed l state)
    (request : Request) : c.Informed l (serve state request) := by
  obtain ⟨checker, space⟩ := state
  cases request with
  | setRetention retention =>
    exact ⟨h.precedes.trans (checker.precedes_setRetention retention), h.lattice, h.predictable,
      h.truthful⟩
  | check id fromRecords objective =>
    have hagrees := h.precedes.agrees
    have hcovers : checker.dataset.Covers space.lattice := by
      rw [hagrees.dataset, show space.lattice = l from h.lattice]
      exact hl
    have hprecedes := precedes_check hcovers id fromRecords objective
    obtain ⟨hlattice, hpredictable⟩ :=
      SolutionSpace.check_frame checker space id fromRecords objective
    refine ⟨h.precedes.trans hprecedes, hlattice.trans h.lattice,
      hpredictable.trans h.predictable, fun hsize => ?_⟩
    have hsize := lt_of_le_of_lt hprecedes.extends_dictionary.size_le hsize
    exact (((h.truthful hsize).agrees hagrees).after_check (h.precedes.faithful hsize hc) hcovers
      id fromRecords objective).1.agrees hagrees.symm

theorem Informed.serveAll {state : Checker × SolutionSpace} (h : c.Informed l state)
    (requests : List Request) : c.Informed l (requests.foldl Checker.serve state) := by
  induction requests generalizing state with
  | nil => exact h
  | cons request requests ih => exact ih (h.serve hc hl request)

end

/-- Once a checker with monotone criteria has served any requests on a new space, whatever the
space holds to be anonymous is anonymous by a new checker's scan of all records, and whatever it
holds not to be anonymous is not. -/
theorem predictions_sound {d : Dataset} (hd : d.Accepted) (hrecords : d.records < 2 ^ 32)
    {criteria : List Criterion} (hmonotone : criteria.all Criterion.isMonotone = true)
    {metric : Metric} {settings others : CheckerSettings} {c fresh : Checker}
    (hc : create d criteria metric settings = .ok c)
    (hfresh : create d criteria metric others = .ok fresh) {l : Lattice}
    (hl : Lattice.ofBounds d.minLevels d.maxLevels = .ok l) (requests : List Request)
    (hdictionary : (requests.foldl serve
      (c, .ofLattice l)).1.history.dictionary.size < 2 ^ 32) :
    let space := (requests.foldl serve (c, .ofLattice l)).2
    ∀ id < l.size, ∃ e after, fresh.check (.ofLattice l) id true .loss = (.ok e, after) ∧
      (space.has id Mark.anonymous = true → e.anonymous = true) ∧
      (space.has id Mark.notAnonymous = true → e.anonymous = false) ∧
      ¬(space.has id Mark.anonymous = true ∧ space.has id Mark.notAnonymous = true) := by
  intro space id hid
  obtain ⟨hfaithful, rfl⟩ := faithful_create hd.wellFormed hrecords hc
  obtain ⟨hfreshFaithful, hdataset⟩ := faithful_create hd.wellFormed hrecords hfresh
  have hcovers := hd.wellFormed.covers hl
  have hready := ready_create hc
  have hinformed := (c.informed_new l).serveAll hfaithful hcovers requests
  have htruthful : space.Truthful c := hinformed.truthful hdictionary
  have hlattice : space.lattice = l := hinformed.lattice
  have hmonotone : space.predictable = true → c.criteria.all Criterion.isMonotone = true :=
    fun _ => all_isMonotone_create hc hmonotone
  have hspace : c.dataset.Covers space.lattice := by rwa [hlattice]
  have hlevels := Lattice.levelsOf_levelsAt hid
  obtain ⟨e, g, hscan⟩ := fullScan_ok (hcovers.admits hlevels) hfaithful.wellFormed hready
  have hverdict : e.anonymous = c.anonymousAt (space.lattice.levelsAt id) := by
    rw [hlattice]
    exact (fullScan_answers hscan).1
  have hfull : fresh.fullScan (l.levelsAt id) .loss = .ok (e, g) :=
    ((agrees_create hfresh hc).fullScan _ _).trans hscan
  have hfreshCovers : fresh.dataset.Covers (SolutionSpace.ofLattice l).lattice := by
    rw [hdataset]
    exact hcovers
  obtain ⟨after, learned, hcheck, -⟩ := hfreshFaithful.check_ok hfreshCovers hlevels hfull true
  have hanonymous : space.has id Mark.anonymous = true → e.anonymous = true := fun h =>
    hverdict.trans (htruthful.has_anonymous hfaithful.wellFormed hready hspace hmonotone h)
  have hviolated : space.has id Mark.notAnonymous = true → e.anonymous = false := fun h =>
    hverdict.trans (htruthful.has_notAnonymous hfaithful.wellFormed hready hspace hmonotone h)
  refine ⟨_, _, hcheck, hanonymous, hviolated, fun h => ?_⟩
  have hboth := (hanonymous h.1).symm.trans (hviolated h.2)
  cases hboth

/-- Not even the top of the sample has three records in a class. A check of the top alone tells
that of the bottom as well. -/
theorem predictions_sound_sample :
    let c := { Sample.checker Sample.keeping with criteria := [.kAnonymity 3] }
    let space := ([Request.check 1 false .loss].foldl serve (c, .ofLattice Sample.lattice)).2
    space.has 0 Mark.checked = false ∧ space.has 0 Mark.notAnonymous = true ∧
      ∃ e after, c.check (.ofLattice Sample.lattice) 0 true .loss = (.ok e, after) ∧
        e.anonymous = false := by
  intro c space
  have hpredicted : space.has 0 Mark.notAnonymous = true := by decide +kernel
  have hc : create Sample.dataset [.kAnonymity 3] (.height .sum) Sample.keeping = .ok c := rfl
  obtain ⟨e, after, hcheck, -, hviolated, -⟩ := predictions_sound Sample.dataset_accepted
    (by decide) rfl hc hc Sample.lattice_eq [Request.check 1 false .loss] (by decide +kernel) 0
    (by decide)
  exact ⟨by decide +kernel, hpredicted, e, after, hcheck, hviolated hpredicted⟩

end Checker
end Recoding
