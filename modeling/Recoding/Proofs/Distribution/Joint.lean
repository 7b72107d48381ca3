import Recoding.Distribution
import Mathlib.Tactic

/-!
# Joint distributions

A distribution that was built from empty ones is determined by its frequencies. Merging adds
frequencies, so the distribution of a class depends only on how often each value occurs in
it, not on the order in which its parts were merged.
-/

namespace Recoding.Distribution

/-- Ascending values with positive frequencies. -/
structure Canonical (d : Distribution) : Prop where
  ascending : d.entries.Pairwise (·.1 < ·.1)
  positive : ∀ entry ∈ d.entries, 0 < entry.2

theorem canonical_empty : empty.Canonical := ⟨List.Pairwise.nil, by simp [empty]⟩

section Entries
variable {entries : List (Nat × Nat)} {value frequency : Nat}

theorem lookup_cons_getD (rest : List (Nat × Nat)) (v n w : Nat) :
    (((v, n) :: rest).lookup w).getD 0 = if w = v then n else (rest.lookup w).getD 0 := by
  by_cases h : w = v
  · simp [h]
  · have hb : (w == v) = false := by simpa using h
    simp [List.lookup_cons, hb, h]

theorem lookup_eq_none_of_lt (entries : List (Nat × Nat)) (h : ∀ entry ∈ entries, value < entry.1) :
    entries.lookup value = none := by
  rw [List.lookup_eq_none_iff]
  intro entry hentry
  have hlt := h entry hentry
  simp
  omega

theorem lookup_eq_none_of_lt_head {first : Nat × Nat} {rest : List (Nat × Nat)}
    (h : (first :: rest).Pairwise (·.1 < ·.1)) (hlt : value < first.1) :
    (first :: rest).lookup value = none :=
  lookup_eq_none_of_lt _ (List.forall_mem_cons.mpr
    ⟨hlt, fun entry hentry => hlt.trans ((List.pairwise_cons.mp h).1 entry hentry)⟩)

theorem mem_insertEntry {entry : Nat × Nat}
    (h : entry ∈ insertEntry value frequency entries) :
    entry.1 = value ∨ ∃ other ∈ entries, other.1 = entry.1 := by
  induction entries with
  | nil => simp_all [insertEntry]
  | cons first rest ih =>
    obtain ⟨v, n⟩ := first
    simp only [insertEntry] at h
    split_ifs at h with hlt heq
    · rcases List.mem_cons.mp h with rfl | h
      · exact Or.inl rfl
      · exact Or.inr ⟨entry, h, rfl⟩
    · subst heq
      rcases List.mem_cons.mp h with rfl | h
      · exact Or.inl rfl
      · exact Or.inr ⟨entry, List.mem_cons_of_mem _ h, rfl⟩
    · rcases List.mem_cons.mp h with rfl | h
      · exact Or.inr ⟨(v, n), List.mem_cons_self, rfl⟩
      · rcases ih h with he | ⟨other, ho, he⟩
        · exact Or.inl he
        · exact Or.inr ⟨other, List.mem_cons_of_mem _ ho, he⟩

theorem pairwise_insertEntry (h : entries.Pairwise (·.1 < ·.1)) :
    (insertEntry value frequency entries).Pairwise (·.1 < ·.1) := by
  induction entries with
  | nil => simp [insertEntry]
  | cons first rest ih =>
    obtain ⟨v, n⟩ := first
    obtain ⟨hfirst, hrest⟩ := List.pairwise_cons.mp h
    simp only [insertEntry]
    split_ifs with hlt heq
    · refine List.pairwise_cons.mpr ⟨?_, h⟩
      intro entry hentry
      rcases List.mem_cons.mp hentry with rfl | hentry
      · exact hlt
      · exact hlt.trans (hfirst entry hentry)
    · exact List.pairwise_cons.mpr ⟨hfirst, hrest⟩
    · refine List.pairwise_cons.mpr ⟨?_, ih hrest⟩
      intro entry hentry
      rcases mem_insertEntry hentry with he | ⟨other, ho, he⟩
      · simp only
        omega
      · exact lt_of_lt_of_eq (hfirst other ho) he

theorem positive_insertEntry (hf : 0 < frequency) (h : ∀ entry ∈ entries, 0 < entry.2) :
    ∀ entry ∈ insertEntry value frequency entries, 0 < entry.2 := by
  induction entries with
  | nil => simpa [insertEntry] using hf
  | cons first rest ih =>
    obtain ⟨v, n⟩ := first
    have hrest := ih fun entry he => h entry (List.mem_cons_of_mem _ he)
    simp only [insertEntry]
    split_ifs with hlt heq
    · simpa [hf] using h
    · simpa [hf] using fun a b hab => h (a, b) (List.mem_cons_of_mem _ hab)
    · intro entry hentry
      rcases List.mem_cons.mp hentry with rfl | hentry
      · exact h _ List.mem_cons_self
      · exact hrest entry hentry

theorem lookup_insertEntry (h : entries.Pairwise (·.1 < ·.1)) (w : Nat) :
    ((insertEntry value frequency entries).lookup w).getD 0 =
      (entries.lookup w).getD 0 + if w = value then frequency else 0 := by
  induction entries with
  | nil => by_cases hw : w = value <;> simp [insertEntry, hw]
  | cons first rest ih =>
    obtain ⟨v, n⟩ := first
    obtain ⟨hfirst, hrest⟩ := List.pairwise_cons.mp h
    simp only [insertEntry]
    by_cases hlt : value < v
    · rw [if_pos hlt, lookup_cons_getD]
      by_cases hw : w = value
      · have hnone : ((v, n) :: rest).lookup w = none :=
          lookup_eq_none_of_lt_head h (hw ▸ hlt)
        rw [hnone, if_pos hw, if_pos hw, Option.getD_none, Nat.zero_add]
      · simp [hw]
    · rw [if_neg hlt]
      by_cases heq : value = v
      · subst heq
        by_cases hw : w = value <;> simp [lookup_cons_getD, hw]
      · rw [if_neg heq, lookup_cons_getD, lookup_cons_getD, ih hrest]
        by_cases hv : w = v
        · simp [hv, Ne.symm heq]
        · simp [hv]

/-- A value with a positive frequency is not below all of the ascending values that have the same
frequencies. -/
theorem not_lt_head {others : List (Nat × Nat)} {v n w m : Nat} (hn : 0 < n)
    (ho : ((w, m) :: others).Pairwise (·.1 < ·.1))
    (h : (((v, n) :: entries).lookup v).getD 0 = (((w, m) :: others).lookup v).getD 0) :
    ¬v < w := by
  intro hlt
  rw [lookup_eq_none_of_lt_head ho hlt, lookup_cons_getD, if_pos rfl, Option.getD_none] at h
  omega

theorem entries_ext {others : List (Nat × Nat)} (he : entries.Pairwise (·.1 < ·.1))
    (ho : others.Pairwise (·.1 < ·.1)) (hep : ∀ entry ∈ entries, 0 < entry.2)
    (hop : ∀ entry ∈ others, 0 < entry.2)
    (h : ∀ v, (entries.lookup v).getD 0 = (others.lookup v).getD 0) : entries = others := by
  induction entries generalizing others with
  | nil =>
    cases others with
    | nil => rfl
    | cons first rest =>
      obtain ⟨v, n⟩ := first
      have hzero := h v
      have hpos : 0 < n := hop (v, n) List.mem_cons_self
      simp at hzero
      omega
  | cons first rest ih =>
    obtain ⟨v, n⟩ := first
    obtain ⟨hfirst, hrest⟩ := List.pairwise_cons.mp he
    have hn : 0 < n := hep (v, n) List.mem_cons_self
    cases others with
    | nil =>
      have hzero := h v
      simp at hzero
      omega
    | cons second others =>
      obtain ⟨w, m⟩ := second
      obtain ⟨hsecond, hothers⟩ := List.pairwise_cons.mp ho
      have hm : 0 < m := hop (w, m) List.mem_cons_self
      have hv : v = w := le_antisymm (not_lt.mp (not_lt_head hm he (h w).symm))
        (not_lt.mp (not_lt_head hn ho (h v)))
      subst hv
      have hnm : n = m := by simpa [lookup_cons_getD] using h v
      subst hnm
      congr 1
      refine ih hrest hothers (fun e h => hep e (List.mem_cons_of_mem _ h))
        (fun e h => hop e (List.mem_cons_of_mem _ h)) fun x => ?_
      by_cases hx : x = v
      · rw [lookup_eq_none_of_lt rest (hx ▸ hfirst),
          lookup_eq_none_of_lt others (hx ▸ hsecond)]
      · simpa [lookup_cons_getD, hx] using h x

end Entries

theorem Canonical.ext {d e : Distribution} (hd : d.Canonical) (he : e.Canonical)
    (h : ∀ v, d.frequency v = e.frequency v) : d = e := by
  obtain ⟨entries⟩ := d
  obtain ⟨others⟩ := e
  congr 1
  exact entries_ext hd.ascending he.ascending hd.positive he.positive h

theorem Canonical.frequency_eq {d : Distribution} (hd : d.Canonical) {entry : Nat × Nat}
    (he : entry ∈ d.entries) : d.frequency entry.1 = entry.2 := by
  obtain ⟨entries⟩ := d
  have hascending : entries.Pairwise (·.1 < ·.1) := hd.ascending
  clear hd
  change (entries.lookup entry.1).getD 0 = entry.2
  change entry ∈ entries at he
  induction entries with
  | nil => cases he
  | cons first rest ih =>
    obtain ⟨hfirst, hrest⟩ := List.pairwise_cons.mp hascending
    rw [lookup_cons_getD]
    rcases List.mem_cons.mp he with rfl | he
    · simp
    · rw [if_neg (hfirst entry he).ne', ih hrest he]

theorem Canonical.add {d : Distribution} (hd : d.Canonical) (value frequency : Nat) :
    (d.add value frequency).Canonical := by
  unfold Distribution.add
  split_ifs with hf
  · exact hd
  · exact ⟨pairwise_insertEntry hd.ascending,
      positive_insertEntry (Nat.pos_of_ne_zero hf) hd.positive⟩

theorem Canonical.frequency_add {d : Distribution} (hd : d.Canonical)
    (value frequency v : Nat) : (d.add value frequency).frequency v =
      d.frequency v + if v = value then frequency else 0 := by
  unfold Distribution.add
  by_cases hf : frequency = 0
  · simp [hf]
  · rw [if_neg hf]
    exact lookup_insertEntry hd.ascending v

theorem Canonical.addEntries {entries : List (Nat × Nat)}
    (hascending : entries.Pairwise (·.1 < ·.1)) {d : Distribution} (hd : d.Canonical) :
    (entries.foldl (fun d (value, frequency) => d.add value frequency) d).Canonical ∧
      ∀ v, (entries.foldl (fun d (value, frequency) => d.add value frequency) d).frequency v =
        d.frequency v + (entries.lookup v).getD 0 := by
  induction entries generalizing d with
  | nil => exact ⟨hd, fun v => rfl⟩
  | cons first rest ih =>
    obtain ⟨w, n⟩ := first
    obtain ⟨hfirst, hrest⟩ := List.pairwise_cons.mp hascending
    obtain ⟨hcanonical, hfrequency⟩ := ih hrest (hd.add w n)
    refine ⟨hcanonical, fun v => ?_⟩
    rw [List.foldl_cons, hfrequency, hd.frequency_add, lookup_cons_getD]
    by_cases hv : v = w
    · subst hv
      simp [lookup_eq_none_of_lt rest hfirst]
    · simp [hv]

theorem Canonical.merge {d e : Distribution} (hd : d.Canonical) (he : e.Canonical) :
    (d.merge e).Canonical := (hd.addEntries he.ascending).1

theorem Canonical.frequency_merge {d e : Distribution} (hd : d.Canonical) (he : e.Canonical)
    (v : Nat) : (d.merge e).frequency v = d.frequency v + e.frequency v :=
  (hd.addEntries he.ascending).2 v

@[simp] theorem frequency_empty (v : Nat) : empty.frequency v = 0 := rfl

/-- How often a value occurs in a distribution that may be missing. -/
def occurrences (d : Option Distribution) (v : Nat) : Nat := (d.getD empty).frequency v

def joint (parts : List (Option Distribution)) : Option Distribution :=
  parts.foldl combine none

/-- All distributions that are there are canonical. -/
def AllCanonical (parts : List (Option Distribution)) : Prop :=
  ∀ d, some d ∈ parts → d.Canonical

theorem joint_concat (parts : List (Option Distribution)) (d : Option Distribution) :
    joint (parts ++ [d]) = combine (joint parts) d := by
  simp [joint]

/-- A joint distribution is there if one of its parts is, it is canonical, and it has the
summed frequencies. -/
theorem joint_spec {parts : List (Option Distribution)} (h : AllCanonical parts) :
    ((joint parts).isSome ↔ ∃ d, some d ∈ parts) ∧
      (∀ d ∈ joint parts, d.Canonical) ∧
      ∀ v, occurrences (joint parts) v = (parts.map (occurrences · v)).sum := by
  induction parts using List.reverseRecOn with
  | nil => simp [joint, occurrences]
  | append_singleton parts last ih =>
    obtain ⟨hsome, hcanonical, hsum⟩ := ih fun d hd => h d (by simp [hd])
    rw [joint_concat]
    cases last with
    | none =>
      refine ⟨by simpa [combine] using hsome, by simpa [combine] using hcanonical, fun v => ?_⟩
      simpa [combine, occurrences] using hsum v
    | some d =>
      have hd : d.Canonical := h d (by simp)
      have hbase : ((joint parts).getD empty).Canonical := by
        cases hj : joint parts with
        | none => exact canonical_empty
        | some e => exact hcanonical e (by simp [hj])
      refine ⟨by simp [combine], by simpa [combine] using hbase.merge hd, fun v => ?_⟩
      have hv : ((joint parts).getD empty).frequency v = _ := hsum v
      simp [combine, occurrences, hbase.frequency_merge hd, hv]

theorem joint_congr {parts others : List (Option Distribution)} (hp : AllCanonical parts)
    (ho : AllCanonical others) (hsome : (∃ d, some d ∈ parts) ↔ ∃ d, some d ∈ others)
    (hsum : ∀ v, (parts.map (occurrences · v)).sum = (others.map (occurrences · v)).sum) :
    joint parts = joint others := by
  obtain ⟨hps, hpc, hpv⟩ := joint_spec hp
  obtain ⟨hos, hoc, hov⟩ := joint_spec ho
  have hiff : (joint parts).isSome = (joint others).isSome :=
    Bool.eq_iff_iff.mpr (hps.trans (hsome.trans hos.symm))
  cases hj : joint parts with
  | none => exact (Option.isNone_iff_eq_none.mp (by simpa [hj] using hiff)).symm
  | some d =>
    cases hk : joint others with
    | none => simp [hj, hk] at hiff
    | some e =>
      congr 1
      refine (hpc d (by simp [hj])).ext (hoc e (by simp [hk])) fun v => ?_
      have hv := (hpv v).trans ((hsum v).trans (hov v).symm)
      simpa [hj, hk, occurrences] using hv

end Recoding.Distribution
