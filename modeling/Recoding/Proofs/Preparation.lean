import Recoding.Proofs.Check.Total
import Recoding.Search.Basic
import Recoding.Settings.Basic

/-!
# Preparations

Before anything is checked, the criteria and the metric get to know the dataset and the search is
set up. With valid settings only one thing can be missing: the sensitive values that a criterion
of diversity looks at.
-/

namespace Recoding

/-- A list of computations of which some fail, all of these in the same way. -/
theorem mapM_cases {α β : Type} {f : α → Except Failure β} {failure : Failure} {xs : List α}
    (h : ∀ x ∈ xs, (∃ y, f x = .ok y) ∨ f x = .error failure) :
    (∀ x ∈ xs, f x ≠ .error failure) ∧ (∃ ys, xs.mapM f = .ok ys) ∨
      (∃ x ∈ xs, f x = .error failure) ∧ xs.mapM f = .error failure := by
  induction xs with
  | nil => exact Or.inl ⟨fun _ hx => absurd hx List.not_mem_nil, [], rfl⟩
  | cons x rest ih =>
    rw [List.mapM_cons]
    rcases h x List.mem_cons_self with ⟨y, hy⟩ | herror
    · rw [hy, ok_bind]
      rcases ih fun z hz => h z (List.mem_cons_of_mem _ hz) with ⟨hok, ys, hys⟩ | ⟨hsome, herror⟩
      · refine Or.inl ⟨List.forall_mem_cons.mpr ⟨by simp [hy], hok⟩, y :: ys, ?_⟩
        rw [hys]
        rfl
      · refine Or.inr ⟨hsome.imp fun z hz => ⟨List.mem_cons_of_mem _ hz.1, hz.2⟩, ?_⟩
        rw [herror]
        rfl
    · refine Or.inr ⟨⟨x, List.mem_cons_self, herror⟩, ?_⟩
      rw [herror]
      rfl

namespace Settings

/-! ## What valid settings are -/

/-- Diversity is asked of a dataset without sensitive values. -/
def LacksSensitive (s : Settings) (d : Dataset) : Prop :=
  (∃ l, .distinctDiversity l ∈ s.criteria) ∧ d.sensitive = none

theorem validate_ok {s : Settings} (h : s.validate = .ok ()) :
    (∀ choice ∈ s.criteria, criterionFault? choice = none) ∧ s.checkSearch = .ok () := by
  obtain ⟨_, -, h⟩ := bind_eq_ok.mp h
  cases hfault : s.criteria.findSome? criterionFault? with
  | some fault =>
    rw [hfault] at h
    cases h
  | none =>
    rw [hfault] at h
    obtain ⟨_, hsearch, -⟩ := bind_eq_ok.mp h
    exact ⟨List.findSome?_eq_none_iff.mp hfault, hsearch⟩

/-! ## Criteria -/

theorem prepare_criterion {choice : CriterionChoice} (h : criterionFault? choice = none)
    (d : Dataset) : (∃ c, (Criterion.ofChoice choice).prepare d = .ok c) ∧
        ¬((∃ l, choice = .distinctDiversity l) ∧ d.sensitive = none) ∨
      (Criterion.ofChoice choice).prepare d = .error .diversityWithoutSensitive ∧
        (∃ l, choice = .distinctDiversity l) ∧ d.sensitive = none := by
  cases choice with
  | inclusion subset => exact Or.inl ⟨⟨_, rfl⟩, by simp⟩
  | kAnonymity k =>
    simp only [criterionFault?, ite_eq_right_iff, reduceCtorEq, imp_false] at h
    exact Or.inl ⟨⟨_, if_neg h⟩, by simp⟩
  | distinctDiversity l =>
    simp only [criterionFault?, ite_eq_right_iff, reduceCtorEq, imp_false] at h
    simp only [Criterion.ofChoice, Criterion.prepare, if_neg h]
    cases hsensitive : d.sensitive with
    | some values => exact Or.inl ⟨⟨_, rfl⟩, by simp⟩
    | none => exact Or.inr ⟨rfl, ⟨l, rfl⟩, rfl⟩
  | profitability attacker payoffs => exact Or.inl ⟨⟨_, rfl⟩, by simp⟩

theorem prepare_criteria {s : Settings}
    (h : ∀ choice ∈ s.criteria, criterionFault? choice = none) (d : Dataset) :
    ¬s.LacksSensitive d ∧
        (∃ cs, (s.criteria.map Criterion.ofChoice).mapM (·.prepare d) = .ok cs) ∨
      s.LacksSensitive d ∧ (s.criteria.map Criterion.ofChoice).mapM (·.prepare d) =
        .error .diversityWithoutSensitive := by
  have hone := fun choice hchoice => prepare_criterion (h choice hchoice) d
  have hall : ∀ choice ∈ s.criteria, (∃ c, (Criterion.ofChoice choice).prepare d = .ok c) ∨
      (Criterion.ofChoice choice).prepare d = .error .diversityWithoutSensitive :=
    fun choice hchoice => (hone choice hchoice).imp And.left And.left
  rw [List.mapM_map]
  refine (mapM_cases hall).imp (And.imp_left ?_) (And.imp_left ?_)
  · rintro hnone ⟨⟨l, hl⟩, hsensitive⟩
    rcases hone _ hl with ⟨-, hnot⟩ | ⟨herror, -⟩
    · exact hnot ⟨⟨l, rfl⟩, hsensitive⟩
    · exact hnone _ hl herror
  · rintro ⟨choice, hchoice, herror⟩
    rcases hone choice hchoice with ⟨⟨c, hok⟩, -⟩ | ⟨-, ⟨l, rfl⟩, hsensitive⟩
    · cases hok.symm.trans herror
    · exact ⟨⟨l, hchoice⟩, hsensitive⟩

end Settings

/-! ## Metrics -/

namespace Metric

theorem exists_columnEntropy {h : Hierarchy} (hc : h.Coherent) (rows : Nat)
    {counted : List (Nat × Nat)} (hv : ∀ p ∈ counted, p.1 < h.codes.size) :
    ∃ losses, columnEntropy? h rows counted = some losses := by
  refine mapM_some fun level hlevel => ?_
  have hcoded : ∃ coded, counted.mapM
      (fun p => (h.generalize? p.1 level).map (·, p.2)) = some coded := by
    refine mapM_some fun p hp => ?_
    obtain ⟨code, hcode⟩ := hc.exists_code (hv p hp) (List.mem_range.mp hlevel)
    exact ⟨_, by rw [hcode]; rfl⟩
  obtain ⟨coded, hcoded⟩ := hcoded
  exact ⟨_, by rw [hcoded]; rfl⟩

theorem exists_entropyLosses {d : Dataset} (hd : d.WellFormed) (order : IterationOrder) :
    ∃ losses, entropyLosses? d order = some losses := by
  refine mapM_some fun p hp => ?_
  obtain ⟨h, column⟩ := p
  have hcolumn : d.hierarchies[column]? = some h := List.mk_mem_zipIdx_iff_getElem?.mp hp
  obtain ⟨hlt, hmem⟩ := List.getElem?_eq_some_iff.mp hcolumn
  have hcovered : ∀ value ∈ (List.range d.table.rows).map fun row =>
      (d.table.get? row column).getD 0, value < h.codes.size := by
    intro value hvalue
    obtain ⟨row, hrow, rfl⟩ := List.mem_map.mp hvalue
    obtain ⟨value, hget, hsize⟩ := hd.covered row (List.mem_range.mp hrow) column h hcolumn
    rwa [hget]
  have hcoherent := hd.coherent h (hmem ▸ List.getElem_mem hlt)
  have hcounted : ∀ p ∈ order.arrange column (DomainShare.tally ((List.range d.table.rows).map
      fun row => (d.table.get? row column).getD 0)), p.1 < h.codes.size := by
    intro p hp
    obtain ⟨value, hvalue, rfl⟩ := List.mem_map.mp ((order.perm column _).mem_iff.mp hp)
    exact hcovered value (List.mem_eraseDups.mp hvalue)
  obtain ⟨losses, hlosses⟩ := exists_columnEntropy hcoherent d.records hcounted
  refine ⟨losses, ?_⟩
  dsimp only
  rw [CodeTable.column?_eq (hd.width ▸ hlt)]
  exact hlosses

theorem exists_prepare {d : Dataset} (hd : d.WellFormed) (m : Metric) :
    ∃ prepared, m.prepare d = .ok prepared := by
  cases m with
  | height aggregate => exact ⟨_, rfl⟩
  | normalizedEntropy aggregate order tables =>
    obtain ⟨losses, hlosses⟩ := exists_entropyLosses hd order
    refine ⟨normalizedEntropy aggregate order (some ⟨losses, d.shares⟩), ?_⟩
    rw [prepare, hlosses]
    rfl
  | discernability records => exact ⟨_, rfl⟩
  | entropyDomainShare tables => exact ⟨_, rfl⟩

end Metric

/-! ## Searches -/

/-- What validation has found possible, setting up the search finds possible again. -/
theorem Search.exists_ofSettings {s : Settings} (h : s.checkSearch = .ok ())
    (entropy : RandomSource) : ∃ search, ofSettings s.search entropy = .ok search := by
  unfold Settings.checkSearch at h
  unfold ofSettings
  cases hmethod : s.search.method with
  | bestFirst => exact ⟨_, rfl⟩
  | privateWalk =>
    rw [hmethod] at h
    obtain ⟨perStep, hbudget, -⟩ := bind_eq_ok.mp h
    dsimp only
    rw [hbudget]
    exact ⟨_, rfl⟩

end Recoding
