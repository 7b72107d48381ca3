import Recoding.Criterion.Analysis
import Recoding.Proofs.Check.Total
import Recoding.Proofs.Grouping.Partition

/-!
# Analyses

Following the links of a table finds the first class that a criterion rejects, so an analysis of a
table is the analysis of its grouping. It decides whether all criteria accept all classes with
records in the research subset, and it changes nothing but the flag of one class.
-/

namespace Recoding

/-! ## First rejections -/

section
variable {c : Criterion} {levels : List Nat} {classes : List EquivalenceClass}

theorem Criterion.admits_flagged (c : Criterion) (levels : List Nat) (e : EquivalenceClass)
    (passed : Bool) : c.admits levels { e with passed } = c.admits levels e := by
  cases c <;> rfl

theorem Criterion.firstRejected_some {place : Nat}
    (h : c.firstRejected levels classes = .ok (some place)) :
    (∃ e, classes[place]? = some e ∧ 0 < e.count ∧ c.admits levels e = .ok false) ∧
      ∀ e ∈ classes.take place, e.count = 0 ∨ c.admits levels e = .ok true := by
  induction classes generalizing place with
  | nil => cases h
  | cons e rest ih =>
    rw [firstRejected_cons] at h
    obtain ⟨accepted, haccepted, h⟩ := bind_eq_ok.mp h
    cases accepted with
    | true =>
      obtain ⟨found, hfound, hplace⟩ := map_eq_ok.mp h
      obtain ⟨own, rfl, rfl⟩ := Option.map_eq_some_iff.mp hplace
      obtain ⟨hrejected, hbefore⟩ := ih hfound
      refine ⟨hrejected, ?_⟩
      rw [List.take_succ_cons, List.forall_mem_cons]
      refine ⟨?_, hbefore⟩
      split_ifs at haccepted with hcount
      · exact Or.inl hcount
      · exact Or.inr haccepted
    | false =>
      cases h
      by_cases hcount : e.count = 0
      · rw [if_pos hcount] at haccepted
        cases haccepted
      · rw [if_neg hcount] at haccepted
        exact ⟨⟨e, rfl, Nat.pos_of_ne_zero hcount, haccepted⟩, by simp⟩

theorem Criterion.firstRejected_error {failure : Failure}
    (h : c.firstRejected levels classes = .error failure) :
    ∃ e ∈ classes, 0 < e.count ∧ c.admits levels e = .error failure := by
  induction classes with
  | nil => cases h
  | cons e rest ih =>
    rw [firstRejected_cons] at h
    by_cases hcount : e.count = 0
    · rw [if_pos hcount, ok_bind, if_pos rfl] at h
      obtain ⟨x, hx, hfailed⟩ := ih (map_eq_error.mp h)
      exact ⟨x, List.mem_cons_of_mem e hx, hfailed⟩
    · rw [if_neg hcount] at h
      cases haccepted : c.admits levels e with
      | error own =>
        rw [haccepted] at h
        cases h
        exact ⟨e, List.mem_cons_self, Nat.pos_of_ne_zero hcount, haccepted⟩
      | ok accepted =>
        rw [haccepted, ok_bind] at h
        cases accepted with
        | true =>
          obtain ⟨x, hx, hfailed⟩ := ih (map_eq_error.mp h)
          exact ⟨x, List.mem_cons_of_mem e hx, hfailed⟩
        | false => cases h

theorem Criterion.firstRejected_flagged (c : Criterion) (levels : List Nat)
    (classes : List EquivalenceClass) (passed : Bool) :
    c.firstRejected levels (classes.map fun e => { e with passed }) =
      c.firstRejected levels classes := by
  induction classes with
  | nil => rfl
  | cons e rest ih =>
    rw [List.map_cons, firstRejected_cons, firstRejected_cons, ih, admits_flagged]

variable {criteria : List Criterion}

/-- The criterion that rejects a class first comes after criteria that accept all classes. -/
theorem firstRejection_some {place : Nat}
    (h : firstRejection levels classes criteria = .ok (some place)) :
    ∃ before c after, criteria = before ++ c :: after ∧
      (∀ b ∈ before, ∀ e ∈ classes, e.count = 0 ∨ b.admits levels e = .ok true) ∧
      c.firstRejected levels classes = .ok (some place) := by
  induction criteria with
  | nil => cases h
  | cons c rest ih =>
    rw [firstRejection_cons] at h
    obtain ⟨found, hfound, h⟩ := bind_eq_ok.mp h
    cases found with
    | none =>
      obtain ⟨before, own, after, rfl, hbefore, hown⟩ := ih h
      exact ⟨c :: before, own, after, rfl,
        List.forall_mem_cons.mpr ⟨Criterion.firstRejected_none.mp hfound, hbefore⟩, hown⟩
    | some own =>
      cases h
      exact ⟨[], c, rest, rfl, by simp, hfound⟩

theorem firstRejection_lt {place : Nat}
    (h : firstRejection levels classes criteria = .ok (some place)) : place < classes.length := by
  obtain ⟨-, c, -, -, -, hc⟩ := firstRejection_some h
  obtain ⟨⟨e, he, -⟩, -⟩ := Criterion.firstRejected_some hc
  exact (List.getElem?_eq_some_iff.mp he).1

theorem firstRejection_error {failure : Failure}
    (h : firstRejection levels classes criteria = .error failure) :
    ∃ c ∈ criteria, ∃ e ∈ classes, 0 < e.count ∧ c.admits levels e = .error failure := by
  induction criteria with
  | nil => cases h
  | cons c rest ih =>
    rw [firstRejection_cons] at h
    cases hfound : c.firstRejected levels classes with
    | error own =>
      rw [hfound] at h
      cases h
      exact ⟨c, List.mem_cons_self, Criterion.firstRejected_error hfound⟩
    | ok found =>
      rw [hfound, ok_bind] at h
      cases found with
      | none =>
        obtain ⟨other, hother, hfailed⟩ := ih h
        exact ⟨other, List.mem_cons_of_mem c hother, hfailed⟩
      | some own => cases h

theorem firstRejection_flagged (levels : List Nat) (classes : List EquivalenceClass)
    (criteria : List Criterion) (passed : Bool) :
    firstRejection levels (classes.map fun e => { e with passed }) criteria =
      firstRejection levels classes criteria := by
  induction criteria with
  | nil => rfl
  | cons c rest ih => rw [firstRejection_cons, firstRejection_cons, ih, c.firstRejected_flagged]

end

namespace ClassTable

/-! ## Flags -/

section
variable {t : ClassTable}

theorem entries_passAll (t : ClassTable) :
    t.passAll.entries = t.entries.map fun e => { e with passed := true } := by
  simp [entries, passAll]

theorem eq_of_slots {u : ClassTable} (htracks : t.tracks = u.tracks)
    (hbuckets : t.buckets = u.buckets) (hslots : t.slots = u.slots) (hfirst : t.first = u.first)
    (hlast : t.last = u.last) : t = u := by
  cases t
  cases u
  simp_all

/-- A flag makes no difference once all classes are passed. -/
theorem passAll_reject (t : ClassTable) (i : Nat) : (t.reject i).passAll = t.passAll := by
  refine eq_of_slots rfl rfl (Array.ext_getElem? fun k => ?_) rfl rfl
  simp only [passAll, reject, ClassTable.modify, Array.getElem?_map, Array.getElem?_modify]
  split_ifs
  · rw [Option.map_map]
    rfl
  · rfl

theorem passAll_passAll (t : ClassTable) : t.passAll.passAll = t.passAll := by
  refine eq_of_slots rfl rfl (Array.ext_getElem? fun k => ?_) rfl rfl
  simp only [passAll, Array.getElem?_map, Option.map_map]
  rfl

namespace Linked
variable {hash : List Nat → UInt64} (h : t.Linked hash)
include h

theorem passAll : t.passAll.Linked hash := by
  refine h.of_frame h.buckets_pos (h.chained.map Array.size_map fun i => ?_) rfl rfl ?_
  · rw [ClassTable.passAll, Array.getElem?_map, Option.map_map]
    rfl
  · rw [ClassTable.passAll, Array.toList_map, List.map_map]
    rfl

theorem classes_passAll : t.passAll.classes = t.classes.map fun e => { e with passed := true } := by
  rw [h.passAll.classes_eq, entries_passAll, h.classes_eq]

theorem reject (i : Nat) : (t.reject i).Linked hash :=
  h.modify i fun _ => rfl

theorem classes_reject (i : Nat) :
    (t.reject i).classes = t.classes.modify i fun e => { e with passed := false } := by
  rw [(h.reject i).classes_eq, ClassTable.reject, entries_modify, h.classes_eq]

end Linked

/-! ## Judgements -/

/-- The verdict and the table after the class at a place has been rejected, if any has. -/
def verdict (t : ClassTable) (place : Option Nat) : Bool × ClassTable :=
  place.elim (true, t) fun i => (false, t.reject i)

theorem judgeFrom_some {i : Nat} {s : Slot} (h : t.slots[i]? = some s) (levels : List Nat)
    (c : Criterion) : t.judgeFrom levels c (some i) =
      (if s.entry.count = 0 then .ok true else c.admits levels s.entry) >>= fun accepted =>
        if accepted then t.judgeFrom levels c s.following else .ok (false, t.reject i) := by
  rw [judgeFrom]
  split
  · simp_all
  · rename_i own hown
    obtain rfl : s = own := Option.some.inj (h.symm.trans hown)
    split_ifs
    · rfl
    · rfl

namespace Linked
variable {hash : List Nat → UInt64} (h : t.Linked hash)
include h

/-- Following the links from a slot is going through the classes from its place on. -/
theorem judgeFrom_eq (levels : List Nat) (c : Criterion) (i : Nat) :
    t.judgeFrom levels c (Slot.placed t.slots.size i) =
      (c.firstRejected levels (t.entries.drop i)).map fun place =>
        t.verdict (place.map (i + ·)) := by
  refine h.along (motive := fun i cursor classes => t.judgeFrom levels c cursor =
    (c.firstRejected levels classes).map fun place => t.verdict (place.map (i + ·))) ?stop ?step i
  case stop =>
    intro i
    rw [judgeFrom]
    rfl
  case step =>
    intro i s behind hslot hbehind
    rw [judgeFrom_some hslot, hbehind, Criterion.firstRejected_cons, map_bind_ok]
    refine bind_congr fun accepted => ?_
    cases accepted with
    | false => rfl
    | true =>
      cases c.firstRejected levels behind with
      | error failure => rfl
      | ok place =>
        have hplace : (place.map (· + 1)).map (i + ·) = place.map (i + 1 + ·) := by
          rw [Option.map_map]
          congr 1
          funext k
          simp only [Function.comp_apply]
          omega
        exact congrArg (fun place => Except.ok (t.verdict place)) hplace.symm

theorem judge_eq (levels : List Nat) (criteria : List Criterion) :
    t.judge levels criteria = (firstRejection levels t.classes criteria).map t.verdict := by
  induction criteria with
  | nil => rfl
  | cons c rest ih =>
    rw [judge, h.first, h.judgeFrom_eq, firstRejection_cons, List.drop_zero, h.classes_eq]
    rw [h.classes_eq] at ih
    cases c.firstRejected levels t.entries with
    | error failure => rfl
    | ok place =>
      cases place with
      | none => exact ih
      | some place => simp [verdict]

theorem analyze_eq (levels : List Nat) (criteria : List Criterion) :
    t.analyze levels criteria =
      (firstRejection levels t.classes criteria).map t.passAll.verdict := by
  rw [analyze, h.passAll.judge_eq, h.classes_passAll, firstRejection_flagged]

end Linked
end

/-! ## Reached tables -/

/-- The tables that come about by filling, merging and judging empty ones. -/
inductive Reached (hash : List Nat → UInt64) : ClassTable → Prop where
  | empty (capacity : Nat) (tracks : Bool) : Reached hash (ofCapacity capacity tracks)
  | add {t : ClassTable} (h : Reached hash t) (c : Contribution) : Reached hash (t.add hash c)
  | merge {t other : ClassTable} (h : Reached hash t) (hother : Reached hash other) :
    Reached hash (t.merge hash other)
  | analyze {t judged : ClassTable} {levels : List Nat} {criteria : List Criterion}
    {anonymous : Bool} (h : Reached hash t)
    (hjudged : t.analyze levels criteria = .ok (anonymous, judged)) : Reached hash judged

section
variable {t : ClassTable} {hash : List Nat → UInt64} {levels : List Nat}
  {criteria : List Criterion}

/-- A class without records in the subset counts as accepted. -/
theorem accepted_iff {c : Criterion} {e : EquivalenceClass} :
    (e.count = 0 ∨ c.admits levels e = .ok true) ↔
      (0 < e.count → c.admits levels e = .ok true) := by
  rw [Nat.pos_iff_ne_zero, ← or_iff_not_imp_left]

theorem passAll_verdict (t : ClassTable) (place : Option Nat) :
    (t.verdict place).2.passAll = t.passAll := by
  cases place with
  | none => rfl
  | some place => exact passAll_reject t place

namespace Linked
variable (h : t.Linked hash)
include h

/-- An analysis leaves a table with all classes passed, or all but a rejected one. -/
theorem analyze_ok {anonymous : Bool} {judged : ClassTable}
    (hjudged : t.analyze levels criteria = .ok (anonymous, judged)) :
    ∃ place, firstRejection levels t.classes criteria = .ok place ∧
      (anonymous, judged) = t.passAll.verdict place := by
  rw [h.analyze_eq] at hjudged
  obtain ⟨place, hplace, heq⟩ := map_eq_ok.mp hjudged
  exact ⟨place, hplace, heq.symm⟩

theorem analyze_true : (∃ judged, t.analyze levels criteria = .ok (true, judged)) ↔
    ∀ c ∈ criteria, ∀ e ∈ t.classes, 0 < e.count → c.admits levels e = .ok true := by
  simp only [← accepted_iff, ← firstRejection_none]
  constructor
  · rintro ⟨judged, hjudged⟩
    obtain ⟨place, hplace, heq⟩ := h.analyze_ok hjudged
    cases place with
    | none => exact hplace
    | some place => cases heq
  · intro hnone
    exact ⟨t.passAll, by rw [h.analyze_eq, hnone]; rfl⟩

theorem passAll_analyze {anonymous : Bool} {judged : ClassTable}
    (hjudged : t.analyze levels criteria = .ok (anonymous, judged)) :
    judged.passAll = t.passAll := by
  obtain ⟨place, -, heq⟩ := h.analyze_ok hjudged
  rw [show judged = (t.passAll.verdict place).2 from congrArg Prod.snd heq, passAll_verdict,
    passAll_passAll]

theorem passed_of_true {judged : ClassTable}
    (hjudged : t.analyze levels criteria = .ok (true, judged)) :
    ∀ e ∈ judged.classes, e.passed = true := by
  obtain ⟨place, -, heq⟩ := h.analyze_ok hjudged
  cases place with
  | some place => cases heq
  | none =>
    cases heq
    intro e he
    rw [h.classes_passAll] at he
    obtain ⟨own, -, rfl⟩ := List.mem_map.mp he
    rfl

/-- One class is flagged, where the first rejection is. -/
theorem rejected_of_false {judged : ClassTable}
    (hjudged : t.analyze levels criteria = .ok (false, judged)) :
    ∃ place, firstRejection levels t.classes criteria = .ok (some place) ∧
      ∀ i x, judged.classes[i]? = some x → (x.passed = false ↔ i = place) := by
  obtain ⟨place, hplace, heq⟩ := h.analyze_ok hjudged
  cases place with
  | none => cases heq
  | some place =>
    cases heq
    refine ⟨place, hplace, fun i x hx => ?_⟩
    rw [h.passAll.classes_reject, h.classes_passAll, List.getElem?_modify, Option.map_eq_map,
      List.getElem?_map, Option.map_map] at hx
    obtain ⟨own, -, rfl⟩ := Option.map_eq_some_iff.mp hx
    by_cases hi : place = i <;> simp [hi, eq_comm]

end Linked

theorem Reached.linked (h : t.Reached hash) : t.Linked hash := by
  induction h with
  | empty capacity tracks => exact linked_ofCapacity capacity tracks
  | add _ c ih => exact (ih.add c).1
  | merge _ _ ih _ => exact (ih.merge _).1
  | analyze _ hjudged ih =>
    obtain ⟨place, -, heq⟩ := ih.analyze_ok hjudged
    cases place with
    | none =>
      cases heq
      exact ih.passAll
    | some place =>
      cases heq
      exact ih.passAll.reject place

/-- An analysis decides whether every criterion accepts every class with records in the research
subset. It fails only with a criterion, and it changes nothing but flags: none is set if the
grouping is anonymous, and otherwise one, of the first class that the first criterion to reject any
class rejects. Another analysis finds the same. -/
theorem analyze_decides (ht : t.Reached hash) (levels : List Nat) (criteria : List Criterion) :
    ((∃ judged, t.analyze levels criteria = .ok (true, judged)) ↔
      ∀ c ∈ criteria, ∀ e ∈ t.classes, 0 < e.count → c.admits levels e = .ok true) ∧
    (∀ failure, t.analyze levels criteria = .error failure →
      ∃ c ∈ criteria, ∃ e ∈ t.classes, 0 < e.count ∧ c.admits levels e = .error failure) ∧
    ∀ anonymous judged, t.analyze levels criteria = .ok (anonymous, judged) →
      judged.passAll = t.passAll ∧
      (judged.classes.map fun e => { e with passed := true }) =
        (t.classes.map fun e => { e with passed := true }) ∧
      (anonymous = true → ∀ e ∈ judged.classes, e.passed = true) ∧
      (anonymous = false → ∃ before c after place e, criteria = before ++ c :: after ∧
        (∀ b ∈ before, ∀ x ∈ t.classes, 0 < x.count → b.admits levels x = .ok true) ∧
        t.classes[place]? = some e ∧ 0 < e.count ∧ c.admits levels e = .ok false ∧
        (∀ x ∈ t.classes.take place, 0 < x.count → c.admits levels x = .ok true) ∧
        ∀ i x, judged.classes[i]? = some x → (x.passed = false ↔ i = place)) ∧
      judged.analyze levels criteria = .ok (anonymous, judged) := by
  have h := ht.linked
  refine ⟨h.analyze_true, fun failure hfailed => ?_, fun anonymous judged hjudged => ?_⟩
  · rw [h.analyze_eq] at hfailed
    exact firstRejection_error (map_eq_error.mp hfailed)
  · have hpassed := h.passAll_analyze hjudged
    have hclasses := congrArg classes hpassed
    rw [(ht.analyze hjudged).linked.classes_passAll, h.classes_passAll] at hclasses
    refine ⟨hpassed, hclasses, ?_, ?_, ?_⟩
    · rintro rfl
      exact h.passed_of_true hjudged
    · rintro rfl
      obtain ⟨place, hplace, hflags⟩ := h.rejected_of_false hjudged
      obtain ⟨before, c, after, hcriteria, hbefore, hc⟩ := firstRejection_some hplace
      obtain ⟨⟨e, he, hcount, hrejected⟩, htake⟩ := Criterion.firstRejected_some hc
      exact ⟨before, c, after, place, e, hcriteria,
        fun b hb x hx => accepted_iff.mp (hbefore b hb x hx), he, hcount, hrejected,
        fun x hx => accepted_iff.mp (htake x hx), hflags⟩
    · rw [analyze, hpassed]
      exact hjudged

/-- Four classes whose keys share a hash, one of them without records in the research subset. -/
theorem analyze_decides_collisions :
    let hash : List Nat → UInt64 := fun _ => 0
    let row := fun (key row : Nat) (inSubset : Bool) =>
      Contribution.ofRecord [key] row inSubset none
    let t := ofContributions hash 4 false
      [row 0 0 true, row 1 1 false, row 2 2 true, row 0 3 true, row 3 4 true]
    let criteria := [.inclusion none, .kAnonymity 2]
    ∃ judged, t.analyze [0] criteria = .ok (false, judged) ∧
      judged.classes.map (fun e => (e.key, e.count, e.passed)) =
        [([0], 2, true), ([1], 0, true), ([2], 1, false), ([3], 1, true)] ∧
      judged.analyze [0] criteria = .ok (false, judged) := by
  intro hash row t criteria
  have ht : t.Reached hash := ((((Reached.empty 4 false).add _).add _).add _).add _ |>.add _
  have hgrouping : t.grouping = _ := grouping_ofContributions 4 false
    [row 0 0 true, row 1 1 false, row 2 2 true, row 0 3 true, row 3 4 true]
  have hclasses : t.classes = _ := congrArg Grouping.classes hgrouping
  have hjudged : t.analyze [0] criteria = .ok (false, t.passAll.reject 2) := by
    rw [ht.linked.analyze_eq, hclasses]
    rfl
  refine ⟨_, hjudged, ?_, ((analyze_decides ht [0] criteria).2.2 _ _ hjudged).2.2.2.2⟩
  rw [ht.linked.passAll.classes_reject, ht.linked.classes_passAll, hclasses]
  rfl

end
end ClassTable
end Recoding
