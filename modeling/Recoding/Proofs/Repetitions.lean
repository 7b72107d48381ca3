import Mathlib.Tactic

/-!
# Lists without repetitions

What is left of a list when every element is kept at its first place only.
-/

namespace Recoding

variable {α : Type} [BEq α] [LawfulBEq α]

theorem eraseDups_concat (xs : List α) (a : α) :
    (xs ++ [a]).eraseDups = if a ∈ xs then xs.eraseDups else xs.eraseDups ++ [a] := by
  rw [List.eraseDups_append]
  by_cases h : a ∈ xs <;> simp [List.removeAll, h, List.eraseDups_cons]

theorem nodup_eraseDups (xs : List α) : xs.eraseDups.Nodup := by
  induction xs using List.reverseRecOn with
  | nil => simp
  | append_singleton xs a ih =>
    rw [eraseDups_concat]
    split_ifs with h
    · exact ih
    · exact List.nodup_append.mpr ⟨ih, by simp, by
        intro b hb c hc hbc
        obtain rfl := List.mem_singleton.mp hc
        exact h (List.mem_eraseDups.mp (hbc ▸ hb))⟩

theorem eraseDups_sublist (xs : List α) : xs.eraseDups.Sublist xs := by
  induction xs using List.reverseRecOn with
  | nil => simp
  | append_singleton xs a ih =>
    rw [eraseDups_concat]
    split_ifs with h
    · exact ih.trans (List.sublist_append_left xs [a])
    · exact ih.append_right [a]

theorem eraseDups_append_map {β : Type} [BEq β] [LawfulBEq β] (g : α → β) (before : List β)
    (xs : List α) :
    (before ++ xs.eraseDups.map g).eraseDups = (before ++ xs.map g).eraseDups := by
  induction xs using List.reverseRecOn with
  | nil => simp
  | append_singleton xs a ih =>
    rw [eraseDups_concat]
    split_ifs with h
    · have hg : g a ∈ before ++ xs.map g :=
        List.mem_append_right _ (List.mem_map_of_mem h)
      rw [ih, List.map_append, List.map_singleton, ← List.append_assoc, eraseDups_concat,
        if_pos hg]
    · rw [List.map_append, List.map_append, List.map_singleton, ← List.append_assoc,
        ← List.append_assoc, eraseDups_concat, eraseDups_concat, ih]
      have hmem : g a ∈ before ++ xs.eraseDups.map g ↔ g a ∈ before ++ xs.map g := by
        simp only [List.mem_append, List.mem_map, List.mem_eraseDups]
      by_cases hg : g a ∈ before ++ xs.map g
      · rw [if_pos hg, if_pos (hmem.mpr hg)]
      · rw [if_neg hg, if_neg (mt hmem.mp hg)]

theorem length_eraseDups [DecidableEq α] (xs : List α) :
    xs.eraseDups.length = xs.toFinset.card := by
  rw [← List.toFinset_card_of_nodup (nodup_eraseDups xs)]
  congr 1
  ext a
  simp

end Recoding
