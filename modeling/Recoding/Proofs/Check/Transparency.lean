import Recoding.Proofs.Check.Faithful
import Recoding.Proofs.Sample

/-!
# Transparency of the history

Whatever was checked before, and whatever the history has kept or dropped since, a check
answers what a new checker answers that scans all records.
-/

namespace Recoding

/-- The evaluation without what was scanned for it. -/
def Evaluation.asFull (e : Evaluation) : Evaluation := { e with kind := .full }

namespace Checker

/-- A call on a checker. The solution space of a check is that of the moment. -/
inductive Call where
  | check (space : SolutionSpace) (id : Nat) (fromRecords : Bool) (objective : Objective)
  | setRetention (retention : Retention)

def Call.On (l : Lattice) : Call → Prop
  | .check space _ _ _ => space.lattice = l
  | .setRetention _ => True

def perform (c : Checker) : Call → Checker
  | .check space id fromRecords objective => (c.check space id fromRecords objective).2.1
  | .setRetention retention => c.setRetention retention

theorem precedes_perform {c : Checker} {l : Lattice} (hl : c.dataset.Covers l) {call : Call}
    (h : call.On l) : c.Precedes (c.perform call) := by
  cases call with
  | check space id fromRecords objective =>
    exact precedes_check (by rwa [show space.lattice = l from h]) id fromRecords objective
  | setRetention retention => exact c.precedes_setRetention retention

theorem precedes_performAll {c : Checker} {l : Lattice} (hl : c.dataset.Covers l)
    {calls : List Call} (h : ∀ call ∈ calls, call.On l) :
    c.Precedes (calls.foldl perform c) := by
  induction calls generalizing c with
  | nil => exact Precedes.refl c
  | cons call calls ih =>
    have hcall := precedes_perform hl (h call List.mem_cons_self)
    exact hcall.trans (ih (hcall.agrees.dataset ▸ hl) fun x hx => h x (List.mem_cons_of_mem _ hx))

/-- After any calls on a checker, a check answers what a new checker with any settings answers
from a scan of all records, and keeps the same grouping. Only the kind of the scan differs. -/
theorem check_transparent {d : Dataset} (hd : d.Accepted) (hrecords : d.records < 2 ^ 32)
    {criteria : List Criterion} {metric : Metric} {settings others : CheckerSettings}
    {c fresh : Checker} (hc : create d criteria metric settings = .ok c)
    (hfresh : create d criteria metric others = .ok fresh) {l : Lattice}
    (hl : Lattice.ofBounds d.minLevels d.maxLevels = .ok l) {calls : List Call}
    (hcalls : ∀ call ∈ calls, call.On l) {space : SolutionSpace} (hspace : space.lattice = l)
    (id : Nat) (fromRecords : Bool) (objective : Objective)
    (hdictionary : ((calls.foldl perform c).check space id fromRecords
      objective).2.1.history.dictionary.size < 2 ^ 32) :
    let result := (calls.foldl perform c).check space id fromRecords objective
    let full := fresh.check space id true objective
    result.1.map Evaluation.asFull = full.1 ∧ ∀ e, result.1 = .ok e →
      ∃ levels g, result.2.1.last = some (levels, g) ∧ full.2.1.last = some (levels, g) := by
  obtain ⟨hfaithful, rfl⟩ := faithful_create hd.wellFormed hrecords hc
  obtain ⟨hfresh', hdataset⟩ := faithful_create hd.wellFormed hrecords hfresh
  have hcovers := hd.wellFormed.covers hl
  have hrun := precedes_performAll hcovers hcalls
  have hextends := (agrees_check (calls.foldl perform c) space id fromRecords objective).2
  have hbefore := hrun.faithful (lt_of_le_of_lt hextends.size_le hdictionary) hfaithful
  have hs : (calls.foldl perform c).dataset.Covers space.lattice := by
    rwa [hspace, hrun.agrees.dataset]
  have hsfresh : fresh.dataset.Covers space.lattice := by rwa [hspace, hdataset]
  cases hlevels : space.lattice.levelsOf id with
  | error failure =>
    rw [check_unknown hlevels, check_unknown hlevels]
    exact ⟨rfl, fun e he => nomatch he⟩
  | ok levels =>
    have hscan : (calls.foldl perform c).fullScan levels objective =
        fresh.fullScan levels objective :=
      (hrun.agrees.trans (agrees_create hc hfresh)).fullScan levels objective
    cases hfull : fresh.fullScan levels objective with
    | error failure =>
      rw [hbefore.check_error hs hlevels (hscan.trans hfull),
        hfresh'.check_error hsfresh hlevels hfull]
      exact ⟨rfl, fun e he => nomatch he⟩
    | ok evaluated =>
      obtain ⟨e, g⟩ := evaluated
      obtain ⟨a, r, ha, -, hlast, -⟩ :=
        hbefore.check_ok hs hlevels (hscan.trans hfull) fromRecords
      obtain ⟨b, s, hb, -, hlast', -⟩ := hfresh'.check_ok hsfresh hlevels hfull true
      rw [ha, hb]
      exact ⟨rfl, fun _ _ => ⟨levels, g, hlast, hlast'⟩⟩

/-- The bottom of the sample is checked and stored before its top is checked. -/
theorem check_transparent_sample :
    let space := SolutionSpace.ofLattice Sample.lattice
    let used := [Call.check space 0 false .loss, Call.setRetention .none].foldl perform
      (Sample.checker Sample.keeping)
    used.history.held.length = 1 ∧
      (used.check space 1 false .loss).1.map Evaluation.asFull =
        ((Sample.checker Sample.forgetting).check space 1 true .loss).1 :=
  ⟨by decide +kernel, (check_transparent Sample.dataset_accepted (by decide)
    (Sample.checker_eq Sample.keeping) (Sample.checker_eq Sample.forgetting) Sample.lattice_eq
    (show ∀ call ∈ [Call.check (.ofLattice Sample.lattice) 0 false .loss,
      Call.setRetention .none], call.On Sample.lattice by simp [Call.On, SolutionSpace.ofLattice])
    rfl 1 false .loss (by decide +kernel)).1⟩

end Checker
end Recoding
