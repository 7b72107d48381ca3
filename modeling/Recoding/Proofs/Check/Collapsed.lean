import Recoding.Check.Collapse
import Recoding.Proofs.Check.Failed
import Recoding.Proofs.Check.Released
import Recoding.Proofs.Release

/-!
# Aggregation per class

A table of aggregated values is filled class after class. A write to a table of known cells is
again a table of known cells, so columns, classes and whole tables are written by the same
argument, and since no two classes share a row, their order does not matter.
-/

namespace Recoding

/-! ## Collapsed values -/

namespace Aggregation

/-- What a cell is of the values of its class. -/
def Collapses (values : List Nat) (cell : Nat) : Aggregation → Prop
  | mode => IsLeast {v | v ∈ values ∧ ∀ w ∈ values, values.count w ≤ values.count v} cell
  | median => ∃ ascending : List Nat, ascending.Perm values ∧ ascending.Pairwise (· ≤ ·) ∧
      ascending[(values.length - 1) / 2]? = some cell

/-- The search for the highest count keeps what it has, or finds the least of the values whose
count is highest. -/
theorem mostFrequent_spec (values : List Nat) {vs : List Nat} (hvs : vs.Pairwise (· ≤ ·))
    (best : Nat × Nat) :
    (mostFrequent values vs best = best.1 ∧ ∀ w ∈ vs, values.count w ≤ best.2) ∨
      ∃ v ∈ vs, mostFrequent values vs best = v ∧ best.2 < values.count v ∧
        ∀ w ∈ vs, values.count w < values.count v ∨
          values.count w = values.count v ∧ v ≤ w := by
  induction vs generalizing best with
  | nil => exact .inl ⟨rfl, by simp⟩
  | cons u rest ih =>
    obtain ⟨hleast, hrest⟩ := List.pairwise_cons.mp hvs
    rw [mostFrequent]
    by_cases hu : best.2 < values.count u
    · rw [if_pos hu]
      refine .inr ?_
      rcases ih hrest (u, values.count u) with ⟨heq, hall⟩ | ⟨v, hv, heq, hlt, hall⟩
      · refine ⟨u, List.mem_cons_self, heq, hu, List.forall_mem_cons.mpr ⟨.inr ⟨rfl, le_rfl⟩, ?_⟩⟩
        exact fun w hw => (hall w hw).lt_or_eq.imp_right fun h => ⟨h, hleast w hw⟩
      · exact ⟨v, List.mem_cons_of_mem u hv, heq, hu.trans hlt,
          List.forall_mem_cons.mpr ⟨.inl hlt, hall⟩⟩
    · rw [if_neg hu]
      rcases ih hrest best with ⟨heq, hall⟩ | ⟨v, hv, heq, hlt, hall⟩
      · exact .inl ⟨heq, List.forall_mem_cons.mpr ⟨not_lt.mp hu, hall⟩⟩
      · exact .inr ⟨v, List.mem_cons_of_mem u hv, heq, hlt,
          List.forall_mem_cons.mpr ⟨.inl ((not_lt.mp hu).trans_lt hlt), hall⟩⟩

theorem collapses_collapse (a : Aggregation) {values : List Nat} (h : values ≠ []) :
    a.Collapses values (a.collapse values) := by
  have hperm : values.mergeSort.Perm values := List.mergeSort_perm values _
  have hsorted := sorted_mergeSort values
  cases a with
  | mode =>
    have hmem : ∀ v, v ∈ values.mergeSort.eraseDups ↔ v ∈ values := fun v =>
      List.mem_eraseDups.trans hperm.mem_iff
    -- every count of a value is above the count of zero that the search starts with
    rcases mostFrequent_spec values (hsorted.sublist (eraseDups_sublist _)) (0, 0) with
      ⟨-, hall⟩ | ⟨v, hv, heq, -, hall⟩
    · obtain ⟨v, hv⟩ := List.exists_mem_of_ne_nil _ h
      exact absurd (hall v ((hmem v).mpr hv)) (Nat.not_le.mpr (List.count_pos_iff.mpr hv))
    · rw [show mode.collapse values = v from heq]
      refine ⟨⟨(hmem v).mp hv, fun w hw => ?_⟩, fun w ⟨hw, hmost⟩ => ?_⟩
      · exact (hall w ((hmem w).mpr hw)).elim le_of_lt fun h => h.1.le
      · rcases hall w ((hmem w).mpr hw) with hlt | ⟨-, hle⟩
        · exact absurd (hmost v ((hmem v).mp hv)) hlt.not_ge
        · exact hle
  | median =>
    have hlt : (values.length - 1) / 2 < values.mergeSort.length := by
      have hpos := List.length_pos_iff.mpr h
      rw [hperm.length_eq]
      omega
    refine ⟨values.mergeSort, hperm, hsorted, ?_⟩
    rw [collapse, List.getElem?_eq_getElem hlt, Option.getD_some]

example : mode.collapse [3, 1, 3, 1, 2] = 1 ∧ median.collapse [9, 1, 5, 3] = 3 := by cbv

theorem Collapses.mem {a : Aggregation} {values : List Nat} {cell : Nat}
    (h : a.Collapses values cell) : cell ∈ values := by
  cases a with
  | mode => exact h.1.1
  | median =>
    obtain ⟨ascending, hperm, -, hcell⟩ := h
    exact hperm.mem_iff.mp (List.mem_of_getElem? hcell)

end Aggregation

/-! ## Classes of rows -/

theorem collectRow_map {key : List Nat} {row : Nat} {rows : List Nat → List Nat}
    {keys : List (List Nat)} (hkeys : keys.Nodup) (hnew : key ∉ keys → rows key = []) :
    collectRow key row (keys.map fun k => (k, rows k)) =
      (if key ∈ keys then keys else keys ++ [key]).map fun k =>
        (k, rows k ++ if key = k then [row] else []) := by
  induction keys with
  | nil => simp [collectRow, hnew]
  | cons own rest ih =>
    obtain ⟨hown, hrest⟩ := List.nodup_cons.mp hkeys
    rw [List.map_cons, collectRow]
    by_cases heq : own = key
    · subst heq
      have hothers : ∀ k ∈ rest, own ≠ k := fun k hk hne => hown (hne ▸ hk)
      rw [if_pos rfl, if_pos List.mem_cons_self, List.map_cons, if_pos rfl]
      congr 1
      exact List.map_congr_left fun k hk => by rw [if_neg (hothers k hk), List.append_nil]
    · have hmem : key ∈ own :: rest ↔ key ∈ rest := by simp [Ne.symm heq]
      rw [if_neg heq, ih hrest fun h => hnew (mt hmem.mp h)]
      by_cases h : key ∈ rest <;> simp [hmem, h, Ne.symm heq]

theorem rowsByKey_concat (keys : List (List Nat)) (key : List Nat) :
    rowsByKey (keys ++ [key]) = collectRow key keys.length (rowsByKey keys) := by
  rw [rowsByKey, List.zipIdx_append, List.foldl_append, List.zipIdx_singleton, zero_add]
  rfl

theorem rowsByKey_eq (key : Nat → List Nat) (n : Nat) :
    rowsByKey ((List.range n).map key) = ((List.range n).map key).eraseDups.map fun k =>
      (k, (List.range n).filter (key · = k)) := by
  induction n with
  | zero => rfl
  | succ n ih =>
    have hnew : key n ∉ ((List.range n).map key).eraseDups →
        (List.range n).filter (key · = key n) = [] := by
      intro h
      refine List.filter_eq_nil_iff.mpr fun row hrow heq => h (List.mem_eraseDups.mpr ?_)
      exact List.mem_map.mpr ⟨row, hrow, of_decide_eq_true heq⟩
    rw [List.range_succ, List.map_append, List.map_singleton, rowsByKey_concat, ih,
      collectRow_map (nodup_eraseDups _) hnew, eraseDups_concat, List.length_map,
      List.length_range]
    simp only [List.mem_eraseDups]
    refine List.map_congr_left fun k _ => ?_
    rw [List.filter_append, List.filter_singleton]
    by_cases h : key n = k <;> simp [h]

structure Classes (key : Nat → List Nat) (n : Nat) (classes : List (List Nat)) : Prop where
  own : ∀ rows ∈ classes, ∀ row ∈ rows, rows = (List.range n).filter (key · = key row)
  once : classes.flatten.Perm (List.range n)

theorem Classes.perm {key : Nat → List Nat} {n : Nat} {classes others : List (List Nat)}
    (h : Classes key n classes) (hperm : others.Perm classes) : Classes key n others where
  own rows hrows := h.own rows (hperm.mem_iff.mp hrows)
  once := hperm.flatten.trans h.once

theorem classes_rowsByKey (key : Nat → List Nat) (n : Nat) :
    Classes key n ((rowsByKey ((List.range n).map key)).map Prod.snd) := by
  rw [rowsByKey_eq, List.map_map]
  refine ⟨fun rows hrows row hrow => ?_, ?_⟩
  · obtain ⟨k, -, rfl⟩ := List.mem_map.mp hrows
    obtain ⟨-, hkey⟩ := List.mem_filter.mp hrow
    rw [of_decide_eq_true hkey]
    rfl
  · have hnodup : (((List.range n).map key).eraseDups.map fun k =>
        (List.range n).filter (key · = k)).flatten.Nodup := by
      refine List.nodup_flatten.mpr ⟨fun rows hrows => ?_, ?_⟩
      · obtain ⟨k, -, rfl⟩ := List.mem_map.mp hrows
        exact List.nodup_range.filter _
      · refine List.pairwise_map.mpr ((nodup_eraseDups _).imp fun {k l} hne row hk hl => hne ?_)
        exact (of_decide_eq_true (List.mem_filter.mp hk).2).symm.trans
          (of_decide_eq_true (List.mem_filter.mp hl).2)
    refine (List.perm_ext_iff_of_nodup hnodup List.nodup_range).mpr fun row => ?_
    simp only [List.mem_flatten, List.mem_map, List.mem_eraseDups]
    constructor
    · rintro ⟨rows, ⟨k, -, rfl⟩, hrow⟩
      exact (List.mem_filter.mp hrow).1
    · intro hrow
      exact ⟨_, ⟨key row, ⟨row, hrow, rfl⟩, rfl⟩, List.mem_filter.mpr ⟨hrow, by simp⟩⟩

/-! ## Writing the classes -/

namespace Microaggregation
variable {m : Microaggregation} {rows : List Nat} {entry : Nat → Nat → Nat}

def collapsedOver (m : Microaggregation) (rows : List Nat) (function : Aggregation)
    (column : Nat) : Nat :=
  function.collapse (rows.map fun row => (m.table.get? row column).getD 0)

theorem writeColumn_tabulate (hrows : ∀ row ∈ rows, row < m.table.rows)
    (function : Aggregation) {column : Nat} (hc : column < m.table.columns) :
    m.writeColumn rows (.tabulate m.table.rows m.table.columns entry) (function, column) =
      some (.tabulate m.table.rows m.table.columns fun r c =>
        if r ∈ rows ∧ c = column then m.collapsedOver rows function column else entry r c) := by
  rw [writeColumn, CodeTable.mapM_get? hrows hc, Option.bind_eq_bind, Option.bind_some]
  exact congrArg some (CodeTable.setAll_tabulate hrows column _)

theorem writeColumns_tabulate (hrows : ∀ row ∈ rows, row < m.table.rows)
    {functions : List Aggregation} (hwidth : functions.length ≤ m.table.columns) :
    functions.zipIdx.foldlM (m.writeColumn rows)
        (.tabulate m.table.rows m.table.columns entry) =
      some (.tabulate m.table.rows m.table.columns fun r c =>
        if r ∈ rows ∧ c < functions.length then
          m.collapsedOver rows (functions.getD c .mode) c
        else entry r c) := by
  -- by the function that is written last, since the others keep their columns
  induction functions using List.reverseRecOn with
  | nil => simp
  | append_singleton functions function ih =>
    rw [List.length_append, List.length_singleton] at hwidth
    rw [List.zipIdx_append, List.foldlM_append, ih (by omega), Option.bind_eq_bind,
      Option.bind_some, zero_add, List.zipIdx_singleton, List.foldlM_cons,
      writeColumn_tabulate hrows function hwidth, Option.bind_eq_bind, Option.bind_some]
    refine congrArg some (CodeTable.tabulate_congr fun r _ c _ => ?_)
    rw [List.length_append, List.length_singleton]
    rcases Nat.lt_trichotomy c functions.length with hlt | rfl | hgt
    · simp [hlt, hlt.ne, Nat.lt_succ_of_lt hlt]
    · simp
    · simp [hgt.ne', hgt.not_gt, Nat.not_lt.mpr (Nat.succ_le_of_lt hgt)]

theorem writeClass_tabulate (hm : m.functions.length = m.table.columns)
    (hrows : ∀ row ∈ rows, row < m.table.rows) :
    m.writeClass (.tabulate m.table.rows m.table.columns entry) rows =
      some (.tabulate m.table.rows m.table.columns fun r c =>
        if r ∈ rows then m.collapsedOver rows (m.functions.getD c .mode) c
        else entry r c) := by
  rw [writeClass, writeColumns_tabulate hrows hm.le]
  refine congrArg some (CodeTable.tabulate_congr fun r _ c hc => ?_)
  simp only [hm, hc, and_true]

theorem foldlM_writeClass_tabulate (hm : m.functions.length = m.table.columns)
    {key : Nat → List Nat} {classes : List (List Nat)}
    (h : ∀ rows ∈ classes, ∀ row ∈ rows,
      rows = (List.range m.table.rows).filter (key · = key row)) :
    classes.foldlM m.writeClass (.tabulate m.table.rows m.table.columns entry) =
      some (.tabulate m.table.rows m.table.columns fun r c =>
        if r ∈ classes.flatten then m.collapsed key r c else entry r c) := by
  induction classes generalizing entry with
  | nil => simp
  | cons rows rest ih =>
    obtain ⟨hrows, hrest⟩ := List.forall_mem_cons.mp h
    have hlt : ∀ row ∈ rows, row < m.table.rows := fun row hrow => by
      have hmem := hrow
      rw [hrows row hrow] at hmem
      exact List.mem_range.mp (List.mem_filter.mp hmem).1
    rw [List.foldlM_cons, writeClass_tabulate hm hlt, Option.bind_eq_bind, Option.bind_some,
      ih hrest]
    refine congrArg some (CodeTable.tabulate_congr fun r _ c _ => ?_)
    rw [List.flatten_cons]
    -- a row that is written again later is written with the same class
    by_cases hr : r ∈ rows
    · have hown : m.collapsedOver rows (m.functions.getD c .mode) c = m.collapsed key r c :=
        congrArg (m.collapsedOver · _ c) (hrows r hr)
      simp only [List.mem_append, hr, true_or, if_true, hown, ite_self]
    · simp only [List.mem_append, hr, false_or, if_false]

/-- Whatever the order of the classes, the table is the one that is collapsed by columns. -/
theorem writeClasses_eq (hm : m.functions.length = m.table.columns) {key : Nat → List Nat}
    {classes : List (List Nat)} (h : Classes key m.table.rows classes) :
    m.writeClasses classes = m.collapse? ((List.range m.table.rows).map key) := by
  rw [collapse?_eq hm, writeClasses, CodeTable.zero, foldlM_writeClass_tabulate hm h.own]
  refine congrArg some (CodeTable.tabulate_congr fun r hr c _ => ?_)
  rw [if_pos (h.once.mem_iff.mpr (List.mem_range.mpr hr))]

theorem collapsed_congr (m : Microaggregation) {key : Nat → List Nat} {row other : Nat}
    (h : key row = key other) : m.collapsed key row = m.collapsed key other := by
  funext column
  rw [collapsed, h]
  rfl

theorem collapses_collapsedOver (hm : m.functions.length = m.table.columns)
    (hrows : ∀ row ∈ rows, row < m.table.rows) (hne : rows ≠ []) {column : Nat}
    {function : Aggregation} (hf : m.functions[column]? = some function) :
    ∃ values, rows.mapM (m.table.get? · column) = some values ∧ function.Collapses values
      (m.collapsedOver rows (m.functions.getD column .mode) column) := by
  obtain ⟨hlt, -⟩ := List.getElem?_eq_some_iff.mp hf
  refine ⟨_, CodeTable.mapM_get? hrows (hm ▸ hlt), ?_⟩
  rw [List.getD_eq_getElem?_getD, hf, Option.getD_some]
  exact function.collapses_collapse (mt List.map_eq_nil_iff.mp hne)

end Microaggregation

/-! ## Released tables -/

namespace Checker

/-- Whatever a checker has done before, it releases at all levels in range, and every aggregated
cell is collapsed over the rows that are released with equal generalized codes. Writing the classes
of equal codes one after the other gives the same table in every order, and every row is written
with one of them. -/
theorem release_collapsed {d : Dataset} (hd : d.Accepted) {m : Microaggregation}
    (hm : d.microaggregation = some m) {criteria : List Criterion} {metric : Metric}
    {settings : CheckerSettings} {c : Checker}
    (hc : create d criteria metric settings = .ok c) (space : SolutionSpace) (steps : List Step)
    {levels : List Nat} (hl : d.Admits levels) :
    ∃ release out keys, (steps.foldl take (c, space)).1.release levels = .ok release ∧
      release.microaggregated = some out ∧ d.generalizedRecords? levels = some keys ∧
      (out.rows = d.records ∧ out.columns = m.functions.length) ∧
      (∀ row < d.records, release.generalized.record? row = d.generalize? row levels ∧
        ∀ column function, m.functions[column]? = some function → ∃ values cell,
          (release.group row).mapM (m.table.get? · column) = some values ∧
          out.get? row column = some cell ∧ function.Collapses values cell ∧ cell ∈ values) ∧
      (∀ row < d.records, ∀ other < d.records,
        release.generalized.record? row = release.generalized.record? other →
          out.record? row = out.record? other) ∧
      ∀ classes, classes.Perm ((rowsByKey keys).map Prod.snd) →
        classes.flatten.Perm (List.range d.records) ∧ m.writeClasses classes = some out := by
  have hagrees := agrees_takeAll (c, space) steps
  generalize (steps.foldl take (c, space)).1 = after at hagrees ⊢
  obtain rfl : after.dataset = d := hagrees.dataset.trans (dataset_create hc)
  have hwell := hd.wellFormed
  obtain ⟨hrows, hfunctions⟩ := hwell.aggregated_rows m (by simp [hm])
  obtain ⟨release, hrelease, hout⟩ := exists_release hwell ((ready_create hc).agrees hagrees) hl
  have hrecord := fun (row : Nat) (hrow : row < _) => record?_release hwell hl hrelease hrow
  rw [Dataset.aggregated, hm] at hout
  refine ⟨release, _, _, hrelease, hout, hwell.generalizedRecords_eq hl,
    ⟨hrows, hfunctions.symm⟩, fun row hrow => ⟨?_, ?_⟩, ?_, ?_⟩
  · exact (hrecord row hrow).trans (hwell.generalize_eq hrow hl).symm
  · intro column function hf
    obtain ⟨hcolumn, -⟩ := List.getElem?_eq_some_iff.mp hf
    have hmem : row ∈ after.dataset.rowsWith levels (after.dataset.key levels row) :=
      Dataset.mem_rowsWith.mpr ⟨hrow, rfl⟩
    obtain ⟨values, hvalues, hcell⟩ := Microaggregation.collapses_collapsedOver hfunctions
      (fun other hother => hrows.symm ▸ (Dataset.mem_rowsWith.mp hother).1)
      (List.ne_nil_of_mem hmem) hf
    rw [group_release hwell hl hrelease hrow]
    refine ⟨values, _, hvalues, ?_, hcell, hcell.mem⟩
    rw [CodeTable.get?_tabulate (hrows.symm ▸ hrow) (hfunctions ▸ hcolumn), Dataset.rowsWith,
      ← hrows]
    rfl
  · intro row hrow other hother heq
    rw [hrecord row hrow, hrecord other hother] at heq
    rw [CodeTable.record?_tabulate (hrows.symm ▸ hrow),
      CodeTable.record?_tabulate (hrows.symm ▸ hother),
      Microaggregation.collapsed_congr m (Option.some.inj heq)]
  · intro classes hperm
    rw [← hrows] at hperm ⊢
    have hclasses := (classes_rowsByKey (after.dataset.key levels) m.table.rows).perm hperm
    refine ⟨hclasses.once, ?_⟩
    rw [Microaggregation.writeClasses_eq hfunctions hclasses,
      Microaggregation.collapse?_eq hfunctions]

end Checker

namespace Sample

/-- Four records with one value and a fifth with the other. -/
def unequal : Dataset :=
  ⟨.tabulate 5 1 fun row _ => row / 4, [hierarchy], [0], [1], none, none, none⟩

def summaries : Microaggregation where
  table := .tabulate 5 2 fun row column =>
    ([[3, 9], [1, 1], [3, 5], [1, 3], [7, 8]].getD row []).getD column 0
  functions := [.mode, .median]

def summarized : Dataset := { unequal with microaggregation := some summaries }

theorem summarized_accepted : summarized.Accepted := by
  have haccepted : unequal.Accepted :=
    .ofTable (show ∀ h ∈ [hierarchy], h.Accepted by simp [hierarchy_accepted])
      (show Dataset.ofTable unequal.table [hierarchy] [] = .ok unequal from rfl)
  exact haccepted.withMicroaggregation
    (show unequal.withMicroaggregation summaries = .ok summarized from rfl)

end Sample

namespace Checker

/-- Of two values that are equally frequent the lower one is released, and of four values in order
the second one. The classes may be written from the last to the first. -/
theorem release_collapsed_tie : ∃ c release out,
    create Sample.summarized [.kAnonymity 2] (.height .sum) Sample.keeping = .ok c ∧
      ([Step.check 1 false .loss].foldl take (c, .ofLattice Sample.lattice)).1.release [0] =
        .ok release ∧
      release.microaggregated = some out ∧
      Sample.summaries.writeClasses [[4], [0, 1, 2, 3]] = some out ∧
      (List.range 5).mapM out.record? = some [[1, 3], [1, 3], [1, 3], [1, 3], [7, 8]] := by
  have hlevels : Sample.summarized.Admits [0] := .cons (by decide) .nil
  obtain ⟨release, out, keys, hrelease, hout, hkeys, -, -, -, hclasses⟩ :=
    release_collapsed Sample.summarized_accepted
      (show Sample.summarized.microaggregation = some Sample.summaries from rfl)
      (show create Sample.summarized [.kAnonymity 2] (.height .sum) Sample.keeping = .ok _ from rfl)
      (.ofLattice Sample.lattice) [.check 1 false .loss] hlevels
  obtain rfl : [[0], [0], [0], [0], [1]] = keys := Option.some.inj hkeys
  have hwritten := (hclasses [[4], [0, 1, 2, 3]] (by decide)).2
  have hcells : (Sample.summaries.writeClasses [[4], [0, 1, 2, 3]]).bind
      (fun out => (List.range 5).mapM out.record?) =
        some [[1, 3], [1, 3], [1, 3], [1, 3], [7, 8]] := by cbv
  rw [hwritten] at hcells
  exact ⟨_, release, out, rfl, hrelease, hout, hwritten, hcells⟩

end Checker
end Recoding
