import Recoding.Lattice.Space
import Recoding.Proofs.Lattice.Coordinates

/-!
# Roots of predictions

A root stands for the transformations that it covers: those above it, if it is anonymous, and
those below it, if it is not. A new root drops the ones that it covers, so no root covers another
one, and what was covered before stays covered.
-/

namespace Recoding

theorem levelsLe_iff {a b : List Nat} (h : a.length = b.length) :
    levelsLe a b = true ↔ List.Forall₂ (· ≤ ·) a b := by
  induction a generalizing b with
  | nil =>
    cases b with
    | nil => simp [levelsLe]
    | cons y b => simp at h
  | cons x a ih =>
    cases b with
    | nil => simp at h
    | cons y b =>
      have hrest := ih (b := b) (by simpa using h)
      simp only [levelsLe, List.zip_cons_cons, List.all_cons, Bool.and_eq_true,
        decide_eq_true_eq, List.forall₂_cons] at hrest ⊢
      rw [hrest]

namespace Lattice

/-- A way in which level tuples within the axes cover each other. -/
structure Covering (axes : List Axis) (covers : List Nat → List Nat → Bool) : Prop where
  refl : ∀ a, Within axes a → covers a a = true
  trans : ∀ a b c, Within axes a → Within axes b → Within axes c → covers a b = true →
    covers b c = true → covers a c = true

theorem levelsLe_within {axes : List Axis} {a b : List Nat} (ha : Within axes a)
    (hb : Within axes b) : levelsLe a b = true ↔ List.Forall₂ (· ≤ ·) a b :=
  levelsLe_iff (ha.length_eq.symm.trans hb.length_eq)

theorem covering_levelsLe (axes : List Axis) : Covering axes levelsLe where
  refl a ha := (levelsLe_within ha ha).mpr (List.forall₂_same.mpr fun _ _ => le_rfl)
  trans a b c ha hb hc hab hbc := by
    rw [levelsLe_within ha hb] at hab
    rw [levelsLe_within hb hc] at hbc
    exact (levelsLe_within ha hc).mpr (levels_trans hab hbc)

theorem Covering.flip {axes : List Axis} {covers : List Nat → List Nat → Bool}
    (h : Covering axes covers) : Covering axes fun a b => covers b a where
  refl := h.refl
  trans a b c ha hb hc hab hbc := h.trans c b a hc hb ha hbc hab

end Lattice

namespace SolutionSpace

theorem mem_insertRoot {covers : List Nat → List Nat → Bool} {roots : List (List Nat)}
    {levels root : List Nat} (h : root ∈ insertRoot covers roots levels) :
    root ∈ roots ∨ root = levels := by
  unfold insertRoot at h
  split_ifs at h
  · exact Or.inl h
  · rcases List.mem_append.mp h with h | h
    · exact Or.inl (List.mem_of_mem_filter h)
    · exact Or.inr (List.mem_singleton.mp h)

section
variable {axes : List Axis} {covers : List Nat → List Nat → Bool} {roots : List (List Nat)}
  {levels : List Nat}

/-- A new root adds what it covers, and takes nothing away. -/
theorem covered_insertRoot (h : Lattice.Covering axes covers)
    (hroots : ∀ root ∈ roots, Lattice.Within axes root) (hl : Lattice.Within axes levels)
    {other : List Nat} (ho : Lattice.Within axes other) :
    (∃ root ∈ insertRoot covers roots levels, covers root other = true) ↔
      (∃ root ∈ roots, covers root other = true) ∨ covers levels other = true := by
  unfold insertRoot
  split_ifs with hcovered
  · obtain ⟨root, hroot, hle⟩ := List.any_eq_true.mp hcovered
    exact (or_iff_left_of_imp fun hlevels =>
      ⟨root, hroot, h.trans _ _ _ (hroots root hroot) hl ho hle hlevels⟩).symm
  · constructor
    · rintro ⟨root, hroot, hle⟩
      rcases List.mem_append.mp hroot with hold | hnew
      · exact Or.inl ⟨root, List.mem_of_mem_filter hold, hle⟩
      · exact Or.inr (List.mem_singleton.mp hnew ▸ hle)
    · rintro (⟨root, hroot, hle⟩ | hle)
      · -- a root that is dropped is covered by the new one
        cases hdropped : covers levels root with
        | false => exact ⟨root, by simp [hroot, hdropped], hle⟩
        | true =>
          exact ⟨levels, by simp, h.trans _ _ _ hl (hroots root hroot) ho hdropped hle⟩
      · exact ⟨levels, by simp, hle⟩

/-- No root covers another one. -/
def Apart (covers : List Nat → List Nat → Bool) (roots : List (List Nat)) : Prop :=
  roots.Pairwise fun a b => covers a b = false ∧ covers b a = false

theorem Apart.insertRoot (h : Apart covers roots) (levels : List Nat) :
    Apart covers (insertRoot covers roots levels) := by
  unfold SolutionSpace.insertRoot
  split_ifs with hcovered
  · exact h
  · refine List.pairwise_append.mpr ⟨h.filter _, List.pairwise_singleton _ _, ?_⟩
    rintro root hroot new hnew
    obtain rfl := List.mem_singleton.mp hnew
    obtain ⟨hmem, hkept⟩ := List.mem_filter.mp hroot
    exact ⟨Bool.eq_false_iff.mpr fun hle => hcovered (List.any_eq_true.mpr ⟨root, hmem, hle⟩),
      by simpa using hkept⟩

end

theorem predicts_anonymous {s : SolutionSpace} {id : Nat} :
    s.predicts id Mark.anonymous = true ↔ id < s.lattice.size ∧
      ∃ root ∈ s.anonymousRoots, levelsLe root (s.lattice.levelsAt id) = true := by
  unfold predicts
  by_cases hid : id < s.lattice.size
  · rw [Lattice.levelsOf_levelsAt hid]
    simp [hid, Mark.anonymous]
  · simp [Lattice.levelsOf, hid]

theorem predicts_notAnonymous {s : SolutionSpace} {id : Nat} :
    s.predicts id Mark.notAnonymous = true ↔ id < s.lattice.size ∧
      ∃ root ∈ s.violatingRoots, levelsLe (s.lattice.levelsAt id) root = true := by
  unfold predicts
  by_cases hid : id < s.lattice.size
  · rw [Lattice.levelsOf_levelsAt hid]
    simp [hid, Mark.anonymous, Mark.notAnonymous]
  · simp [Lattice.levelsOf, hid]

end SolutionSpace
end Recoding
