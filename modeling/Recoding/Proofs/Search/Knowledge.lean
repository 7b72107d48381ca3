import Recoding.Proofs.Check.Monotone
import Recoding.Proofs.Lattice.Nodes
import Recoding.Proofs.Lattice.Roots

/-!
# What a solution space knows

A space is truthful if its verdicts, its losses and the roots of its predictions are those of
scans of all records. Then what it predicts is true as well, provided that predictions are made
for monotone criteria only. Searches write to a space in few ways, and each of them keeps it
truthful.
-/

namespace Recoding

namespace SolutionSpace

/-- Everything a space holds about transformations is what the checker would find. -/
structure Truthful (s : SolutionSpace) (c : Checker) : Prop where
  indexed : s.Indexed
  loss : ∀ id, s.marked id Mark.checked = true →
    ∃ loss, s.lossOf id = some loss ∧ loss.value = c.lossAt (s.lattice.levelsAt id)
  anonymous : ∀ id, s.marked id Mark.anonymous =
    (s.marked id Mark.checked && c.anonymousAt (s.lattice.levelsAt id))
  notAnonymous : ∀ id, s.marked id Mark.notAnonymous =
    (s.marked id Mark.checked && !c.anonymousAt (s.lattice.levelsAt id))
  anonymousRoots : ∀ root ∈ s.anonymousRoots,
    Lattice.Within s.lattice.axes root ∧ c.anonymousAt root = true
  violatingRoots : ∀ root ∈ s.violatingRoots,
    Lattice.Within s.lattice.axes root ∧ c.anonymousAt root = false

theorem truthful_ofLattice (l : Lattice) (c : Checker) : (ofLattice l).Truthful c where
  indexed := indexed_ofLattice l
  loss id h := by simp [marked_ofLattice] at h
  anonymous id := by simp [marked_ofLattice]
  notAnonymous id := by simp [marked_ofLattice]
  anonymousRoots root h := by simp [ofLattice] at h
  violatingRoots root h := by simp [ofLattice] at h

theorem Truthful.agrees {s : SolutionSpace} {a b : Checker} (h : s.Truthful a)
    (hab : b.Agrees a) : s.Truthful b := by
  refine ⟨h.indexed, ?_, ?_, ?_, ?_, ?_⟩
  · simpa only [hab.lossAt] using h.loss
  · simpa only [hab.anonymousAt] using h.anonymous
  · simpa only [hab.anonymousAt] using h.notAnonymous
  · simpa only [hab.anonymousAt] using h.anonymousRoots
  · simpa only [hab.anonymousAt] using h.violatingRoots

theorem Truthful.setPredictable {s : SolutionSpace} {c : Checker} (h : s.Truthful c)
    (predictable : Bool) : (s.setPredictable predictable).Truthful c :=
  ⟨h.indexed, h.loss, h.anonymous, h.notAnonymous, h.anonymousRoots, h.violatingRoots⟩

theorem Truthful.follows {s after : SolutionSpace} {c : Checker} {visited : List Nat}
    (h : s.Truthful c) (hf : s.Follows after visited) : after.Truthful c where
  indexed := hf.indexed
  loss id hid := by
    rw [hf.loss, hf.lattice]
    exact h.loss id (hf.checked id ▸ hid)
  anonymous id := by rw [hf.anonymous, hf.checked, hf.lattice, h.anonymous]
  notAnonymous id := by rw [hf.notAnonymous, hf.checked, hf.lattice, h.notAnonymous]
  anonymousRoots := by
    rw [hf.anonymousRoots, hf.lattice]
    exact h.anonymousRoots
  violatingRoots := by
    rw [hf.violatingRoots, hf.lattice]
    exact h.violatingRoots

theorem Truthful.gains {s after : SolutionSpace} {c : Checker} {id : Nat} {e : Evaluation}
    (h : s.Truthful c) (hg : s.Gains after id (s.lattice.levelsAt id) e)
    (hanonymous : e.anonymous = c.anonymousAt (s.lattice.levelsAt id))
    (hloss : e.loss.value = c.lossAt (s.lattice.levelsAt id)) : after.Truthful c where
  indexed := hg.indexed
  loss other hother := by
    rw [hg.loss, hg.lattice]
    by_cases he : id = other
    · rw [if_pos he]
      exact ⟨e.loss, rfl, he ▸ hloss⟩
    · rw [if_neg he]
      rw [hg.checked, beq_false_of_ne he, Bool.or_false] at hother
      exact h.loss other hother
  anonymous other := by
    rw [hg.anonymous, hg.checked, hg.lattice, h.anonymous]
    by_cases he : id = other
    · rw [← he, hanonymous]
      cases s.marked id Mark.checked <;> cases c.anonymousAt (s.lattice.levelsAt id) <;> simp
    · simp [beq_false_of_ne he]
  notAnonymous other := by
    rw [hg.notAnonymous, hg.checked, hg.lattice, h.notAnonymous]
    by_cases he : id = other
    · rw [← he, hanonymous]
      cases s.marked id Mark.checked <;> cases c.anonymousAt (s.lattice.levelsAt id) <;> simp
    · simp [beq_false_of_ne he]
  anonymousRoots root hroot := by
    rw [hg.lattice]
    rcases hg.anonymousRoots with hsame | ⟨hverdict, hinsert⟩
    · exact h.anonymousRoots root (hsame ▸ hroot)
    · rcases mem_insertRoot (hinsert ▸ hroot) with hold | rfl
      · exact h.anonymousRoots root hold
      · exact ⟨Lattice.decode_within _ id, hanonymous ▸ hverdict⟩
  violatingRoots root hroot := by
    rw [hg.lattice]
    rcases hg.violatingRoots with hsame | ⟨hverdict, hinsert⟩
    · exact h.violatingRoots root (hsame ▸ hroot)
    · rcases mem_insertRoot (hinsert ▸ hroot) with hold | rfl
      · exact h.violatingRoots root hold
      · exact ⟨Lattice.decode_within _ id, hanonymous ▸ hverdict⟩

/-! ## Predictions -/

section
variable {s : SolutionSpace} {c : Checker} (h : s.Truthful c)
include h

theorem Truthful.lt_size {id mark : Nat} (hm : s.marked id mark = true) :
    id < s.lattice.size := by
  unfold marked at hm
  cases hnode : s.node? id with
  | none => simp [hnode] at hm
  | some node => exact (Lattice.levelsOf_ok (h.indexed id node hnode)).1

variable (hd : c.dataset.WellFormed) (hc : c.Ready) (hl : c.dataset.Covers s.lattice)
  (hp : s.predictable = true → c.criteria.all Criterion.isMonotone = true)
include hd hc hl hp

theorem Truthful.has_anonymous {id : Nat} (hid : s.has id Mark.anonymous = true) :
    c.anonymousAt (s.lattice.levelsAt id) = true := by
  rw [has_eq, h.anonymous, Bool.or_eq_true, Bool.and_eq_true, Bool.and_eq_true] at hid
  rcases hid with ⟨-, hid⟩ | ⟨hpredictable, hpredicts⟩
  · exact hid
  · obtain ⟨hlt, root, hroot, hle⟩ := predicts_anonymous.mp hpredicts
    obtain ⟨hwithin, hanonymous⟩ := h.anonymousRoots root hroot
    have hle := (Lattice.levelsLe_within hwithin (Lattice.decode_within _ id)).mp hle
    exact c.anonymousAt_mono hd hc (hp hpredictable) hle
      (hl.admits (Lattice.levelsOf_levelsAt hlt)) hanonymous

theorem Truthful.has_notAnonymous {id : Nat} (hid : s.has id Mark.notAnonymous = true) :
    c.anonymousAt (s.lattice.levelsAt id) = false := by
  rw [has_eq, h.notAnonymous, Bool.or_eq_true, Bool.and_eq_true, Bool.and_eq_true,
    Bool.not_eq_true'] at hid
  rcases hid with ⟨-, hid⟩ | ⟨hpredictable, hpredicts⟩
  · exact hid
  · obtain ⟨hlt, root, hroot, hle⟩ := predicts_notAnonymous.mp hpredicts
    obtain ⟨hwithin, hviolating⟩ := h.violatingRoots root hroot
    have hle := (Lattice.levelsLe_within (Lattice.decode_within _ id) hwithin).mp hle
    refine Bool.eq_false_iff.mpr fun hanonymous => ?_
    rw [c.anonymousAt_mono hd hc (hp hpredictable) hle
      (hl.admits (Lattice.levelsOf_encode hwithin)) hanonymous] at hviolating
    cases hviolating

theorem Truthful.has_anonymous_checked {id : Nat} (hid : s.marked id Mark.checked = true) :
    s.has id Mark.anonymous = c.anonymousAt (s.lattice.levelsAt id) := by
  refine Bool.eq_iff_iff.mpr ⟨h.has_anonymous hd hc hl hp, fun hanonymous => ?_⟩
  rw [has_eq, h.anonymous, hid, hanonymous]
  rfl

end

/-! ## Checks -/

theorem check_space (c : Checker) (s : SolutionSpace) (id : Nat) (fromRecords : Bool)
    (objective : Objective) : (c.check s id fromRecords objective).2.2 = s ∨
      ∃ e, s.record id e = .ok (c.check s id fromRecords objective).2.2 := by
  cases hlevels : s.lattice.levelsOf id with
  | error failure =>
    rw [Checker.check_unknown hlevels]
    exact Or.inl rfl
  | ok levels =>
    rw [Checker.check_eq hlevels]
    cases (c.prepared levels fromRecords).run levels (c.plan levels fromRecords).1 objective with
    | error failure => exact Or.inl rfl
    | ok evaluated =>
      dsimp only
      cases hrecord : s.record id evaluated.1 with
      | error failure => exact Or.inl rfl
      | ok recorded => exact Or.inr ⟨evaluated.1, hrecord⟩

theorem check_records {c after : Checker} {s learned : SolutionSpace} {id : Nat}
    {fromRecords : Bool} {objective : Objective} {e : Evaluation}
    (h : c.check s id fromRecords objective = (.ok e, after, learned)) :
    s.record id e = .ok learned := by
  cases hlevels : s.lattice.levelsOf id with
  | error failure =>
    rw [Checker.check_unknown hlevels] at h
    cases h
  | ok levels =>
    rw [Checker.check_eq hlevels] at h
    split at h
    · cases h
    · split at h
      · cases h
      · next hrecord =>
        cases h
        exact hrecord

theorem check_frame (c : Checker) (s : SolutionSpace) (id : Nat) (fromRecords : Bool)
    (objective : Objective) :
    (c.check s id fromRecords objective).2.2.lattice = s.lattice ∧
      (c.check s id fromRecords objective).2.2.predictable = s.predictable := by
  rcases check_space c s id fromRecords objective with hsame | ⟨e, hrecord⟩
  · rw [hsame]
    exact ⟨rfl, rfl⟩
  · exact record_frame hrecord

/-- What a check of a transformation changes in a space. -/
structure Learns (s after : SolutionSpace) (c : Checker) (id : Nat) : Prop where
  lattice : after.lattice = s.lattice
  predictable : after.predictable = s.predictable
  visited : ∀ other, after.marked other Mark.visited = s.marked other Mark.visited
  checked : ∀ other, after.marked other Mark.checked =
    (s.marked other Mark.checked || id == other)
  roots : ∀ root ∈ after.anonymousRoots, root ∈ s.anonymousRoots ∨
    root = s.lattice.levelsAt id ∧ c.anonymousAt root = true
  predicts : ∀ other, s.predicts other Mark.anonymous = true →
    after.predicts other Mark.anonymous = true

theorem Learns.agrees {s after : SolutionSpace} {a b : Checker} {id : Nat}
    (h : s.Learns after a id) (hab : b.Agrees a) : s.Learns after b id :=
  ⟨h.lattice, h.predictable, h.visited, h.checked,
    by simpa only [hab.anonymousAt] using h.roots, h.predicts⟩

theorem Learns.of_follows {s after : SolutionSpace} {id : Nat}
    (hf : s.Follows after []) (hid : s.marked id Mark.checked = true) (c : Checker) :
    s.Learns after c id where
  lattice := hf.lattice
  predictable := hf.predictable
  visited other := by
    rw [Bool.eq_iff_iff, hf.visited]
    simp
  checked other := by
    rw [hf.checked]
    by_cases he : id = other
    · simp [← he, hid]
    · simp [he]
  roots root hroot := Or.inl (hf.anonymousRoots ▸ hroot)
  predicts other hother := by
    rw [predicts_anonymous] at hother ⊢
    rwa [hf.lattice, hf.anonymousRoots]

theorem Learns.of_gains {s after : SolutionSpace} {c : Checker} {id : Nat} {e : Evaluation}
    (h : s.Truthful c) (hg : s.Gains after id (s.lattice.levelsAt id) e)
    (hanonymous : e.anonymous = c.anonymousAt (s.lattice.levelsAt id)) :
    s.Learns after c id where
  lattice := hg.lattice
  predictable := hg.predictable
  visited := hg.visited
  checked := hg.checked
  roots root hroot := by
    rcases hg.anonymousRoots with hsame | ⟨hverdict, hinsert⟩
    · exact Or.inl (hsame ▸ hroot)
    · rcases mem_insertRoot (hinsert ▸ hroot) with hold | rfl
      · exact Or.inl hold
      · exact Or.inr ⟨rfl, hanonymous ▸ hverdict⟩
  predicts other hother := by
    rw [predicts_anonymous] at hother ⊢
    rw [hg.lattice]
    rcases hg.anonymousRoots with hsame | ⟨-, hinsert⟩
    · rwa [hsame]
    · rw [hinsert]
      exact ⟨hother.1, (covered_insertRoot (Lattice.covering_levelsLe _)
        (fun root hroot => (h.anonymousRoots root hroot).1) (Lattice.decode_within _ id)
        (Lattice.decode_within _ other)).mpr (Or.inl hother.2)⟩

section
variable {s : SolutionSpace} {c : Checker} (h : s.Truthful c) (hc : c.Faithful)
  (hl : c.dataset.Covers s.lattice)
include h hc hl

/-- A check that succeeds tells the space the truth, and one that fails tells it nothing. -/
theorem Truthful.check (id : Nat) (fromRecords : Bool) (objective : Objective) :
    (∃ failure after, c.check s id fromRecords objective = (.error failure, after, s)) ∨
      ∃ e after learned, c.check s id fromRecords objective = (.ok e, after, learned) ∧
        learned.Truthful c ∧ s.Learns learned c id := by
  by_cases hid : id < s.lattice.size
  · have hlevels := Lattice.levelsOf_levelsAt hid
    cases hscan : c.fullScan (s.lattice.levelsAt id) objective with
    | error failure => exact Or.inl ⟨_, _, hc.check_error hl hlevels hscan fromRecords⟩
    | ok evaluated =>
      obtain ⟨e, g⟩ := evaluated
      obtain ⟨after, learned, hcheck, -, -, hrecord⟩ := hc.check_ok hl hlevels hscan fromRecords
      refine Or.inr ⟨_, after, learned, hcheck, ?_⟩
      obtain ⟨hanonymous, hloss⟩ := Checker.fullScan_answers hscan
      cases hchecked : s.marked id Mark.checked with
      | true =>
        obtain ⟨_, hagain, hf⟩ := record_again h.indexed hlevels hchecked
          { e with kind := (c.plan (s.lattice.levelsAt id) fromRecords).1.kind }
        cases hagain.symm.trans hrecord
        exact ⟨h.follows hf, .of_follows hf hchecked c⟩
      | false =>
        obtain ⟨_, hfirst, hg⟩ := record_first h.indexed hlevels hchecked
          { e with kind := (c.plan (s.lattice.levelsAt id) fromRecords).1.kind }
        cases hfirst.symm.trans hrecord
        exact ⟨h.gains hg hanonymous hloss, .of_gains h hg hanonymous⟩
  · have hlevels : s.lattice.levelsOf id = .error (.unknownTransformation id) := if_neg hid
    exact Or.inl ⟨_, _, Checker.check_unknown hlevels fromRecords objective⟩

theorem Truthful.after_check (id : Nat) (fromRecords : Bool) (objective : Objective) :
    (c.check s id fromRecords objective).2.2.Truthful c ∧ ∀ other,
      s.marked other Mark.checked = true →
        (c.check s id fromRecords objective).2.2.marked other Mark.checked = true := by
  rcases h.check hc hl id fromRecords objective with
    ⟨failure, after, hcheck⟩ | ⟨e, after, learned, hcheck, hlearned, hlearns⟩
  · rw [hcheck]
    exact ⟨h, fun _ hother => hother⟩
  · rw [hcheck]
    refine ⟨hlearned, fun other hother => ?_⟩
    rw [hlearns.checked, hother, Bool.true_or]

end

end SolutionSpace
end Recoding
