import Recoding.Proofs.Binary64.Arithmetic
import Recoding.Random.Mechanism

/-!
# Draws

Whatever the source of randomness yields, one of the candidates is drawn, provided that there is
one and that their scores are finite.
-/

namespace Recoding

open Binary64

namespace Mechanism

section
variable {κ α : Type} [LT α] [DecidableLT α] [Sub α] {target : α}

theorem locate_mem {weighted : List (κ × α)} {key : κ} (h : locate target weighted = some key) :
    key ∈ weighted.map Prod.fst := by
  induction weighted generalizing target with
  | nil => cases h
  | cons first rest ih =>
    obtain ⟨own, weight⟩ := first
    rw [locate] at h
    split_ifs at h
    · cases h
      exact List.mem_cons_self
    · rcases Option.or_eq_some_iff.mp h with h | ⟨-, h⟩
      · exact List.mem_cons_of_mem _ (ih h)
      · cases h
        exact List.mem_cons_self

theorem locate_isSome {weighted : List (κ × α)} (h : weighted ≠ []) :
    (locate target weighted).isSome = true := by
  cases weighted with
  | nil => exact absurd rfl h
  | cons first rest =>
    obtain ⟨own, weight⟩ := first
    rw [locate]
    split_ifs
    · rfl
    · rw [Option.isSome_or]
      exact Bool.or_true _

end

section
variable {κ : Type} {m : Mechanism} {pool : List (κ × Float)}

theorem map_fst_weights (epsilon : Float) (pool : List (κ × Float)) :
    (weights epsilon pool).map Prod.fst = pool.map Prod.fst := by
  unfold weights
  rw [List.map_map]
  rfl

theorem weights_ne_nil {epsilon : Float} (h : pool ≠ []) : weights epsilon pool ≠ [] := by
  unfold weights
  exact mt List.map_eq_nil_iff.mp h

theorem select_mem {key : κ} (h : (m.select pool).1 = some key) : key ∈ pool.map Prod.fst := by
  unfold select at h
  split_ifs at h
  rw [← map_fst_weights m.epsilon]
  exact locate_mem h

theorem highest_lt (hne : pool ≠ [])
    (h : ∀ entry ∈ pool, magnitude entry.2 < infiniteMagnitude) :
    magnitude (highest pool) < infiniteMagnitude := by
  obtain ⟨first, rest, rfl⟩ := List.exists_cons_of_ne_nil hne
  have hfirst := h first List.mem_cons_self
  unfold highest
  rw [List.map_cons, List.foldl_cons, larger_negativeInfinity hfirst.le]
  refine foldl_larger_lt hfirst fun y hy => ?_
  obtain ⟨entry, hentry, rfl⟩ := List.mem_map.mp hy
  exact h entry (List.mem_cons_of_mem first hentry)

theorem select_isSome (hne : pool ≠ [])
    (h : ∀ entry ∈ pool, magnitude entry.2 < infiniteMagnitude) :
    (m.select pool).1.isSome = true := by
  unfold select
  rw [if_pos (isFinite_iff.mpr (highest_lt hne h))]
  exact locate_isSome (weights_ne_nil hne)

theorem select_single {key : κ} {score : Float} (h : magnitude score < infiniteMagnitude) :
    m.select [(key, score)] = (some key, { m with source := m.source.next.2 }) := by
  have hfinite : (highest [(key, score)]).isFinite = true := by
    refine isFinite_iff.mpr (highest_lt (List.cons_ne_nil _ _) fun entry hentry => ?_)
    rw [List.mem_singleton.mp hentry]
    exact h
  unfold select
  rw [if_pos hfinite]
  simp [weights, locate]

end
end Mechanism

end Recoding
