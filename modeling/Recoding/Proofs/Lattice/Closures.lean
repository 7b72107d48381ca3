import Recoding.Proofs.Lattice.Roots
import Recoding.Proofs.Lattice.Writes

/-!
# Predictions are closures

Of all transformations whose first evaluation served predictions, only the extreme ones remain as
roots, and which of them do depends on the order of the evaluations. What is predicted does not:
it is what any of these transformations implies.
-/

namespace Recoding.SolutionSpace

open SpaceStep (evaluations)

/-- The first evaluation of a transformation gave the verdict, while verdicts were predicted. -/
def Anchored (l : Lattice) (steps : List SpaceStep) (verdict : Bool) (id : Nat) : Prop :=
  id < l.size ∧ ∃ before e after, steps = before ++ .record id e :: after ∧
    evaluations id before = [] ∧ (performAll l before).predictable = true ∧ e.anonymous = verdict

theorem anchored_concat {l : Lattice} {steps : List SpaceStep} {step : SpaceStep} {verdict : Bool}
    {id : Nat} : Anchored l (steps ++ [step]) verdict id ↔
      Anchored l steps verdict id ∨ id < l.size ∧ ∃ e, step = .record id e ∧
        evaluations id steps = [] ∧ (performAll l steps).predictable = true ∧
          e.anonymous = verdict := by
  constructor
  · rintro ⟨hid, before, e, after, hsteps, hfirst⟩
    rcases List.eq_nil_or_concat after with rfl | ⟨rest, last, rfl⟩
    · obtain ⟨rfl, hstep⟩ := List.append_inj' hsteps rfl
      exact Or.inr ⟨hid, e, List.singleton_inj.mp hstep, hfirst⟩
    · rw [List.concat_eq_append, ← List.cons_append, ← List.append_assoc] at hsteps
      exact Or.inl ⟨hid, before, e, rest, (List.append_inj' hsteps rfl).1, hfirst⟩
  · rintro (⟨hid, before, e, after, rfl, hfirst⟩ | ⟨hid, e, rfl, hfirst⟩)
    · exact ⟨hid, before, e, after ++ [step], by simp, hfirst⟩
    · exact ⟨hid, steps, e, [], rfl, hfirst⟩

theorem anchored_record {l : Lattice} {steps : List SpaceStep} {id : Nat} (hid : id < l.size)
    (e : Evaluation) {verdict : Bool} {other : Nat} :
    Anchored l (steps ++ [.record id e]) verdict other ↔ Anchored l steps verdict other ∨
      other = id ∧ (performAll l steps).predictable = true ∧ evaluations id steps = [] ∧
        e.anonymous = verdict := by
  refine anchored_concat.trans (or_congr_right ⟨?_, ?_⟩)
  · rintro ⟨-, e', he, hfirst, hpredictable, hverdict⟩
    cases he
    exact ⟨rfl, hpredictable, hfirst, hverdict⟩
  · rintro ⟨rfl, hpredictable, hfirst, hverdict⟩
    exact ⟨hid, e, rfl, hfirst, hpredictable, hverdict⟩

/-! ## Roots -/

def rootsOf (s : SolutionSpace) : Bool → List (List Nat)
  | true => s.anonymousRoots
  | false => s.violatingRoots

/-- The tuples that share a verdict: those above if it is anonymity, those below if not. -/
def spreads : Bool → List Nat → List Nat → Bool
  | true => levelsLe
  | false => fun a b => levelsLe b a

theorem covering_spreads (axes : List Axis) (verdict : Bool) :
    Lattice.Covering axes (spreads verdict) := by
  cases verdict with
  | true => exact Lattice.covering_levelsLe axes
  | false => exact (Lattice.covering_levelsLe axes).flip

/-- Roots, none of which covers another one, cover what the given tuples cover. -/
structure Spans (axes : List Axis) (covers : List Nat → List Nat → Bool)
    (roots : List (List Nat)) (anchors : List Nat → Prop) : Prop where
  within : ∀ root ∈ roots, Lattice.Within axes root
  apart : Apart covers roots
  covered : ∀ other, Lattice.Within axes other → ((∃ root ∈ roots, covers root other = true) ↔
    ∃ anchor, anchors anchor ∧ covers anchor other = true)

section
variable {axes : List Axis} {covers : List Nat → List Nat → Bool} {roots : List (List Nat)}
  {anchors : List Nat → Prop} (h : Spans axes covers roots anchors)
include h

theorem Spans.congr {others : List Nat → Prop} (he : ∀ levels, others levels ↔ anchors levels) :
    Spans axes covers roots others :=
  ⟨h.within, h.apart, by simpa only [he] using h.covered⟩

theorem Spans.insertRoot (hc : Lattice.Covering axes covers) {levels : List Nat}
    (hl : Lattice.Within axes levels) : Spans axes covers (insertRoot covers roots levels)
      fun anchor => anchors anchor ∨ anchor = levels where
  within root hroot := (mem_insertRoot hroot).elim (h.within root) fun he => he ▸ hl
  apart := h.apart.insertRoot levels
  covered other ho := by
    rw [covered_insertRoot hc h.within hl ho, h.covered other ho]
    simp only [or_and_right, exists_or, exists_eq_left]

theorem Spans.nodup (hc : Lattice.Covering axes covers) : roots.Nodup := by
  refine h.apart.imp_of_mem fun {a b} ha _ hab => ?_
  rintro rfl
  rw [hc.refl a (h.within a ha)] at hab
  cases hab.1

end

theorem Spans.antichain {axes : List Axis} {verdict : Bool} {roots : List (List Nat)}
    {anchors : List Nat → Prop} (h : Spans axes (spreads verdict) roots anchors) :
    roots.Nodup ∧ IsAntichain (List.Forall₂ (· ≤ ·)) {root | root ∈ roots} := by
  refine ⟨h.nodup (covering_spreads axes verdict), fun a ha b hb hne hle => ?_⟩
  have : Std.Symm fun a b => spreads verdict a b = false ∧ spreads verdict b a = false :=
    ⟨fun _ _ => And.symm⟩
  have hapart := h.apart.forall ha hb hne
  have hle := (Lattice.levelsLe_within (h.within a ha) (h.within b hb)).mpr hle
  cases verdict with
  | true => exact Bool.false_ne_true (hapart.1.symm.trans hle)
  | false => exact Bool.false_ne_true (hapart.2.symm.trans hle)

/-- A first evaluation makes a root of the transformation, while verdicts are predicted. -/
theorem rootsOf_record {s : SolutionSpace} {id : Nat} {node : Node}
    (hnode : s.nodeOrUnknown id = .ok node) (e : Evaluation) (verdict : Bool) :
    (s.perform (.record id e)).rootsOf verdict =
      if s.predictable = true ∧ node.has Mark.checked = false ∧ e.anonymous = verdict then
        insertRoot (spreads verdict) (s.rootsOf verdict) node.levels
      else s.rootsOf verdict := by
  have hrecord : s.attempt (.record id e) = .ok (if s.predictable && !node.has Mark.checked then
      (s.put id (node.record e)).addRoot node.levels e.anonymous
      else s.put id (node.record e)) := by
    rw [attempt, record, hnode]
    rfl
  rw [perform, hrecord]
  cases hp : s.predictable <;> cases hc : node.has Mark.checked <;>
    cases he : e.anonymous <;> cases verdict <;> rfl

theorem rootsOf_perform {s : SolutionSpace} {step : SpaceStep}
    (h : ∀ id e after, step = .record id e → s.attempt step ≠ .ok after) (verdict : Bool) :
    (s.perform step).rootsOf verdict = s.rootsOf verdict := by
  unfold perform
  cases hafter : s.attempt step with
  | error e => rfl
  | ok after =>
    cases step with
    | record id e => exact absurd hafter (h id e after rfl)
    | setPredictable predictable =>
      cases hafter
      cases verdict <;> rfl
    | create id | mark id marks | bound id lowerBound =>
      obtain ⟨node, -, rfl⟩ := map_eq_ok.mp hafter
      cases verdict <;> rfl

/-! ## Runs -/

/-- The roots of either verdict cover what the transformations with that verdict cover whose
first evaluation served predictions. -/
theorem spans_performAll (l : Lattice) {steps : List SpaceStep}
    (hflags : ∀ step ∈ steps, step.Harmless) (verdict : Bool) :
    Spans l.axes (spreads verdict) ((performAll l steps).rootsOf verdict)
      fun levels => ∃ id, Anchored l steps verdict id ∧ l.levelsAt id = levels := by
  induction steps using List.reverseRecOn with
  | nil =>
    have hroots : (performAll l []).rootsOf verdict = [] := by cases verdict <;> rfl
    refine ⟨by simp [hroots], by simp [hroots, Apart], fun other _ => ?_⟩
    simp [hroots, Anchored]
  | append_singleton steps step ih =>
    have hold := ih fun own hown => hflags own (by simp [hown])
    have h := housed_performAll l steps
    rw [performAll_append, List.foldl_cons, List.foldl_nil]
    by_cases hrecord : ∃ id e, step = .record id e ∧ id < l.size
    · obtain ⟨id, e, rfl, hid⟩ := hrecord
      have hnode := performAll_node l steps hid
      have hreflects := reflects_performAll (fun own hown => hflags own (by simp [hown])) hnode
      rw [rootsOf_record hnode, Node.foldl_onOwn_levels]
      simp only [hreflects.unchecked_iff]
      split_ifs with hnew
      · refine (hold.insertRoot (covering_spreads _ _) (Lattice.decode_within _ id)).congr
          fun levels => ?_
        simp only [anchored_record hid, hnew, and_true, or_and_right, exists_or, exists_eq_left]
        exact or_congr_right eq_comm
      · exact hold.congr fun levels => by simp only [anchored_record hid, hnew, and_false, or_false]
    · have hsame : ∀ id, Anchored l (steps ++ [step]) verdict id ↔ Anchored l steps verdict id :=
        fun id => anchored_concat.trans (or_iff_left fun ⟨hid, e, hstep, _⟩ =>
          hrecord ⟨id, e, hstep, hid⟩)
      rw [rootsOf_perform]
      · exact hold.congr fun levels => by simp only [hsame]
      · rintro id e after rfl hafter
        exact hrecord ⟨id, e, rfl, (h.attempt_iff _).mp ⟨after, hafter⟩ id rfl⟩

/-- What is predicted is what some transformation implies whose first evaluation served
predictions, whichever of them have become roots. -/
theorem predictions_are_closures (l : Lattice) {steps : List SpaceStep}
    (hflags : ∀ step ∈ steps, step.Harmless) :
    ((performAll l steps).predictable = true → ∀ id < l.size,
      ((performAll l steps).has id Mark.anonymous = true ↔
        (performAll l steps).marked id Mark.anonymous = true ∨ ∃ below,
          Anchored l steps true below ∧
            List.Forall₂ (· ≤ ·) (l.levelsAt below) (l.levelsAt id)) ∧
      ((performAll l steps).has id Mark.notAnonymous = true ↔
        (performAll l steps).marked id Mark.notAnonymous = true ∨ ∃ above,
          Anchored l steps false above ∧
            List.Forall₂ (· ≤ ·) (l.levelsAt id) (l.levelsAt above))) ∧
    ((performAll l steps).predictable = false → ∀ id flags,
      (performAll l steps).has id flags = (performAll l steps).marked id flags) ∧
    ∀ roots ∈ [(performAll l steps).anonymousRoots, (performAll l steps).violatingRoots],
      roots.Nodup ∧ IsAntichain (List.Forall₂ (· ≤ ·)) {root | root ∈ roots} := by
  have hanonymous := spans_performAll l hflags true
  have hviolating := spans_performAll l hflags false
  have hwithin : ∀ id, Lattice.Within l.axes (l.levelsAt id) := Lattice.decode_within l.axes
  have hlattice := (housed_performAll l steps).1
  refine ⟨fun hp id hid => ⟨?_, ?_⟩, fun hp id flags => ?_, ?_⟩
  · rw [has_eq, Bool.or_eq_true, hp, Bool.true_and, predicts_anonymous, hlattice, and_iff_right hid]
    refine or_congr_right ((hanonymous.covered _ (hwithin id)).trans ?_)
    simp [spreads, Lattice.levelsLe_within (hwithin _) (hwithin id)]
  · rw [has_eq, Bool.or_eq_true, hp, Bool.true_and, predicts_notAnonymous, hlattice,
      and_iff_right hid]
    refine or_congr_right ((hviolating.covered _ (hwithin id)).trans ?_)
    simp [spreads, Lattice.levelsLe_within (hwithin id) (hwithin _)]
  · rw [has_eq, hp, Bool.false_and, Bool.or_false]
  · simp only [List.mem_cons, List.not_mem_nil, or_false]
    rintro roots (rfl | rfl)
    · exact hanonymous.antichain
    · exact hviolating.antichain

/-- The second evaluation replaces the root [1, 1] by [1, 0], which also covers [2, 0]. -/
theorem predictions_are_closures_replaced :
    let l : Lattice := ⟨[⟨0, 2, by decide⟩, ⟨0, 1, by decide⟩]⟩
    let e : Evaluation := ⟨true, .scalar 1.0, none, none, 2, .full⟩
    let steps := [.record 4 e, .mark 2 Mark.visited, .record 1 e]
    (∀ step ∈ steps, step.Harmless) ∧ (performAll l steps).has 2 Mark.anonymous = true ∧
      (performAll l steps).anonymousRoots.Nodup := by
  intro l e steps
  have hflags : ∀ step ∈ steps, step.Harmless := by
    simp [steps, SpaceStep.Harmless, Mark.visited, Mark.checked, Mark.anonymous,
      Mark.notAnonymous]
  obtain ⟨hpredicted, -, hroots⟩ := predictions_are_closures l hflags
  have hanchored : Anchored l steps true 1 :=
    ⟨by decide, [.record 4 e, .mark 2 Mark.visited], e, [], rfl, rfl, by decide, rfl⟩
  exact ⟨hflags, (hpredicted (by decide) 2 (by decide)).1.mpr (Or.inr ⟨1, hanchored, by decide⟩),
    (hroots _ List.mem_cons_self).1⟩

end Recoding.SolutionSpace
