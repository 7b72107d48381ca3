import Recoding.Proofs.Check.Released
import Recoding.Proofs.Conclusion
import Recoding.Proofs.Search.Optimality

/-!
# Tuning

The limits of the history and the number of workers decide what is regrouped and kept, not what
comes of it: two runs that differ in nothing else take the same decisions, step by step.
-/

namespace Recoding

namespace Checker

/-- Later states of two checkers that have done the same for their searches. -/
structure Tuned (a b x y : Checker) : Prop where
  left : a.Precedes x
  right : b.Precedes y
  counters : x.counters.ofSearch = y.counters.ofSearch

section
variable {a b : Checker} {l : Lattice} (ha : a.Serves l) (hb : b.Serves l) (hab : a.Agrees b)

include hab in
theorem Tuned.agrees {x y : Checker} (h : Tuned a b x y) : x.Agrees y :=
  h.left.agrees.trans (hab.trans h.right.agrees.symm)

include ha hb hab

/-- Checkers that agree give the same answers, whatever they have kept. -/
theorem Tuned.check {x y : Checker} (h : Tuned a b x y) {space : SolutionSpace}
    (hl : space.lattice = l) (id : Nat) (objective : Objective)
    (hx : (x.check space id false objective).2.1.history.dictionary.size < 2 ^ 32)
    (hy : True → (y.check space id false objective).2.1.history.dictionary.size < 2 ^ 32) :
    (x.check space id false objective).1.map (fun _ => ()) =
        (y.check space id false objective).1.map (fun _ => ()) ∧
      (x.check space id false objective).2.2 = (y.check space id false objective).2.2 ∧
      Tuned a b (x.check space id false objective).2.1 (y.check space id false objective).2.1 := by
  have hx := ha.precedes h.left
    (lt_of_le_of_lt (x.agrees_check space id false objective).2.size_le hx)
  have hy := hb.precedes h.right
    (lt_of_le_of_lt (y.agrees_check space id false objective).2.size_le (hy trivial))
  subst hl
  cases hlevels : space.lattice.levelsOf id with
  | error failure =>
    rw [check_unknown hlevels, check_unknown hlevels]
    exact ⟨rfl, rfl, h⟩
  | ok levels =>
    have htuned : Tuned a b (x.check space id false objective).2.1
        (y.check space id false objective).2.1 := by
      refine ⟨h.left.trans (precedes_check hx.covers id false objective),
        h.right.trans (precedes_check hy.covers id false objective), ?_⟩
      rw [ofSearch_check hlevels, ofSearch_check hlevels]
      exact congrArg Counters.check h.counters
    obtain ⟨houtcome, hspace⟩ :=
      hx.faithful.check_learned hx.covers hlevels false objective
    obtain ⟨houtcome', hspace'⟩ :=
      hy.faithful.check_learned hy.covers hlevels false objective
    rw [← (h.agrees hab).fullScan] at houtcome' hspace'
    exact ⟨houtcome.trans houtcome'.symm, hspace.trans hspace'.symm, htuned⟩

theorem bisimulation_tuned : Bisimulation (Tuned a b) True l where
  metric h := (h.agrees hab).metric
  criteria h := (h.agrees hab).criteria
  retention h retention := ⟨h.left.trans (precedes_setRetention _ retention),
    h.right.trans (precedes_setRetention _ retention), h.counters⟩
  count {x y} h f hf := by
    refine ⟨h.left.trans (precedes_count _ f), h.right.trans (precedes_count _ f), ?_⟩
    rcases hf with rfl | rfl
    · exact congrArg Counters.pruned h.counters
    · exact congrArg Counters.draw h.counters
  check h _ hl := h.check ha hb hab hl

end

theorem Agrees.release {a b : Checker} (h : a.Agrees b) (hd : a.dataset.WellFormed)
    {levels : List Nat} (hl : a.dataset.Admits levels) : a.release levels = b.release levels := by
  have hd' : b.dataset.WellFormed := h.dataset ▸ hd
  have hl' : b.dataset.Admits levels := h.dataset ▸ hl
  rw [release_eq hd hl, release_eq hd' hl', h.fullScan, h.dataset]

end Checker

/-- Settings that differ in the history and in how records are scanned only. -/
def Settings.Retuned (s t : Settings) : Prop :=
  t = { s with history := t.history, workers := t.workers, minRecords := t.minRecords }

/-- A result without the counters of what was regrouped and kept. -/
def Anonymized.withoutScans (result : Anonymized) : Anonymized :=
  { result with report := { result.report with counters := result.report.counters.ofSearch } }

namespace Anonymizer

theorem agrees_checker {a b : Anonymizer} (h : a.settings.Retuned b.settings) (d : Dataset)
    (order : IterationOrder) :
    SameOutcome (fun c c' => c.Agrees c' ∧ c.counters = c'.counters) (a.checker d order)
      (b.checker d order) := by
  unfold checker Checker.create
  rw [h]
  refine .bind_self fun criteria _ => ?_
  refine .bind_self fun metric _ => ?_
  exact .ok ⟨⟨rfl, rfl, rfl, rfl⟩, rfl⟩

/-- What is released depends on the dataset and on what the space holds alone. -/
theorem Outcome.of_congr {x y : Checker} {space : SolutionSpace} (hx : x.Serves space.lattice)
    (h : x.Agrees y) (id : Nat) : Outcome.of x space id = Outcome.of y space id := by
  rw [of_eq, of_eq]
  cases hlevels : space.lattice.levelsOf id with
  | error failure => rfl
  | ok levels =>
    rw [ok_bind, ok_bind, h.release hx.faithful.wellFormed (hx.covers.admits hlevels)]

/-- Tuning changes nothing but the counters of what was regrouped and kept: a run fails as it
does under any other tuning, or returns the same. The runs may differ in their clocks and their
random sources, but not in the order of hash maps, which losses depend on. -/
theorem tuning_invisible {a b : Anonymizer} (htuned : a.settings.Retuned b.settings)
    (htime : a.settings.search.timeLimit = none)
    (hdraws : a.settings.search.method = .privateWalk → a.settings.search.deterministic = true)
    {d : Dataset} (hd : d.Accepted) (hrecords : d.records < 2 ^ 32)
    {surroundings others : Surroundings} (horder : others.order = surroundings.order)
    (hfits : a.Fits d surroundings) (hfits' : b.Fits d others) :
    (a.anonymize d surroundings).map Anonymized.withoutScans =
      (b.anonymize d others).map Anonymized.withoutScans := by
  have hsettings : b.settings.search = a.settings.search := by rw [htuned]
  unfold Fits at hfits hfits'
  rw [horder] at hfits'
  rw [anonymize_eq, anonymize_eq, hsettings, horder]
  refine SameOutcome.map_eq (.bind (agrees_checker htuned d surroundings.order) ?_)
  rintro c c' hc hc' ⟨hagrees, hcounters⟩
  refine .bind (.of_eq (Q := Eq) fun _ _ => rfl) ?_
  rintro l _ hl - rfl
  refine .bind (Search.twin_ofSettings hdraws _ _) ?_
  rintro s t hs ht ⟨htwin, hlimit⟩
  have hserves := Checker.serves_create hd hrecords hc hl
  have hserves' := Checker.serves_create hd hrecords hc' hl
  have hstart : Checker.Tuned c c' c c' :=
    ⟨Checker.Precedes.refl c, Checker.Precedes.refl c', congrArg Counters.ofSearch hcounters⟩
  have hfits := hfits c l s hc hl hs
  have hfits' := hfits' c' l t hc' hl (by rw [hsettings]; exact ht)
  obtain ⟨hanswer, hended⟩ := Search.abreast_ended
    (Checker.bisimulation_tuned hserves hserves' hagrees) hstart
    (.ofLattice l) rfl htwin (hlimit.trans htime) surroundings.clock others.clock hfits fun _ => hfits'
  have hagrees := hended.checker.agrees hagrees
  have houtcome : Outcome.ofEnd (s.ended surroundings.clock c (.ofLattice l)) =
      Outcome.ofEnd (t.ended others.clock c' (.ofLattice l)) := by
    unfold Outcome.ofEnd
    rw [← hended.progress, ← hended.space]
    cases (s.ended surroundings.clock c (.ofLattice l)).progress.optimum with
    | none => rfl
    | some id =>
      have hserves := hserves.precedes hended.checker.left hfits
      exact Outcome.of_congr (hended.lattice.symm ▸ hserves) hagrees id
  unfold conclude
  rw [hanswer, houtcome, ← htwin.plan]
  refine .bind (.of_eq (Q := Eq) fun _ _ => rfl) ?_
  rintro proved _ - - rfl
  refine .map (.of_eq (Q := Eq) fun _ _ => rfl) ?_
  rintro outcome _ rfl
  have hreport := concluded_congr hsettings hended.progress hended.space hagrees.criteria
    hagrees.metric s.plan proved outcome outcome rfl rfl rfl
  unfold Anonymized.withoutScans
  rw [hreport]
  exact congrArg (fun counters => Anonymized.mk outcome.release
    { (b.concluded s.plan proved (t.ended others.clock c' (.ofLattice l)) outcome).report with
      counters }) hended.checker.counters

/-- The sample is released alike with and without a history, after other scans. -/
theorem tuning_invisible_sample :
    let runs := fun a : Anonymizer => a.anonymize Sample.dataset Sample.surroundings
    (runs Sample.anonymizer).map Anonymized.withoutScans =
        (runs Sample.forgetful).map Anonymized.withoutScans ∧
      (runs Sample.anonymizer).toOption.map (·.report.counters.snapshotScans) = some 1 ∧
      (runs Sample.forgetful).toOption.map (·.report.counters.snapshotScans) = some 0 := by
  have hfits : ∀ settings, (Sample.search.ended Sample.surroundings.clock
      (Sample.checker settings) (.ofLattice Sample.lattice)).Fits →
        ∀ a : Anonymizer, a.checker Sample.dataset .firstSeen = .ok (Sample.checker settings) →
          a.settings.search = .standard → a.Fits Sample.dataset Sample.surroundings := by
    intro settings hfits a ha hsearch c l s hc hl hs
    rw [hsearch] at hs
    cases Sample.lattice_eq.symm.trans hl
    cases Sample.search_eq.symm.trans hs
    cases ha.symm.trans hc
    exact hfits
  have htuned : Sample.anonymizer.settings.Retuned Sample.forgetful.settings := rfl
  have hkeeping := hfits Sample.keeping (show _ < _ by decide +kernel) Sample.anonymizer rfl rfl
  have hforgetting :=
    hfits Sample.forgetting (show _ < _ by decide +kernel) Sample.forgetful rfl rfl
  refine ⟨?_, by decide +kernel, by decide +kernel⟩
  exact tuning_invisible htuned rfl (by decide) Sample.dataset_accepted (by decide) rfl hkeeping
    hforgetting

end Anonymizer
end Recoding
