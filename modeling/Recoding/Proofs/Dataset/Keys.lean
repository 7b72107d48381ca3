import Recoding.Proofs.Dataset.Accepted

/-!
# Keys of records

In an accepted dataset lookups never fail for records of the table and levels in range. The
functions here are the results of those lookups. A key at higher levels is a function of the
key at lower levels, which is what regrouping relies on.
-/

namespace Recoding.Dataset

def key (d : Dataset) (levels : List Nat) (row : Nat) : List Nat :=
  (d.generalize? row levels).getD []

def member (d : Dataset) (row : Nat) : Bool := (d.inSubset? row).getD false

def sensitiveValue (d : Dataset) (row : Nat) : Option Nat := (d.sensitiveOf? row).join

def contribution (d : Dataset) (levels : List Nat) (row : Nat) : Contribution :=
  .ofRecord (d.key levels row) row (d.member row) (d.sensitiveValue row)

@[simp] theorem contribution_key (d : Dataset) (levels : List Nat) (row : Nat) :
    (d.contribution levels row).key = d.key levels row := rfl

@[simp] theorem contribution_representative (d : Dataset) (levels : List Nat) (row : Nat) :
    (d.contribution levels row).representative = row := rfl

theorem Admits.length_eq {d : Dataset} {levels : List Nat} (h : d.Admits levels) :
    levels.length = d.hierarchies.length := (List.Forall₂.length_eq h).symm

theorem Admits.of_le {d : Dataset} {low high : List Nat} (h : d.Admits high)
    (hle : List.Forall₂ (· ≤ ·) low high) : d.Admits low := by
  unfold Admits at h ⊢
  induction hle generalizing d with
  | nil => exact h
  | cons hl _ ih =>
    cases hs : d.hierarchies with
    | nil => rw [hs] at h; cases h
    | cons first rest =>
      rw [hs] at h
      cases h with
      | cons hfirst hrest =>
        exact List.Forall₂.cons (lt_of_le_of_lt hl hfirst) (ih (d := { d with hierarchies := rest }) hrest)

/-- The values of the remaining columns of a record are covered by their hierarchies. -/
def CoveredFrom (d : Dataset) (row column : Nat) (hierarchies : List Hierarchy) : Prop :=
  ∀ i h, hierarchies[i]? = some h →
    h.Coherent ∧ ∃ value, d.table.get? row (column + i) = some value ∧ value < h.codes.size

theorem CoveredFrom.head {d : Dataset} {row column : Nat} {h : Hierarchy}
    {rest : List Hierarchy} (hc : d.CoveredFrom row column (h :: rest)) :
    h.Coherent ∧ ∃ value, d.table.get? row column = some value ∧ value < h.codes.size := by
  simpa using hc 0 h rfl

theorem CoveredFrom.tail {d : Dataset} {row column : Nat} {h : Hierarchy}
    {rest : List Hierarchy} (hc : d.CoveredFrom row column (h :: rest)) :
    d.CoveredFrom row (column + 1) rest := by
  intro i h hi
  have := hc (i + 1) h (by simpa using hi)
  rwa [show column + 1 + i = column + (i + 1) by omega]

theorem exists_generalizeFrom {d : Dataset} {row column : Nat} {hierarchies : List Hierarchy}
    {levels : List Nat} (hc : d.CoveredFrom row column hierarchies)
    (hl : List.Forall₂ (fun h level => level < h.height) hierarchies levels) :
    ∃ codes, d.generalizeFrom? row column hierarchies levels = some codes ∧
      codes.length = hierarchies.length := by
  induction hl generalizing column with
  | nil => exact ⟨[], rfl, rfl⟩
  | @cons h level hierarchies levels hlt _ ih =>
    obtain ⟨hcoherent, value, hv, hcovered⟩ := hc.head
    obtain ⟨code, hcode⟩ := hcoherent.exists_code hcovered hlt
    obtain ⟨codes, hcodes, hlength⟩ := ih hc.tail
    exact ⟨code :: codes, by simp [generalizeFrom?, hv, hcode, hcodes], by simp [hlength]⟩

theorem CoveredFrom.exists_values {d : Dataset} {row column : Nat} {hierarchies : List Hierarchy}
    (hc : d.CoveredFrom row column hierarchies) :
    ∃ values, List.Forall₂ (fun h value => value < h.domainSize) hierarchies values ∧
      (∀ i < hierarchies.length, d.table.get? row (column + i) = values[i]?) ∧
      ∀ levels, List.Forall₂ (fun h level => level < h.height) hierarchies levels →
        d.generalizeFrom? row column hierarchies levels =
          some (List.zipWith3 Hierarchy.code hierarchies values levels) := by
  induction hierarchies generalizing column with
  | nil => exact ⟨[], .nil, by simp, fun levels _ => rfl⟩
  | cons h hierarchies ih =>
    obtain ⟨hcoherent, value, hvalue, hcovered⟩ := hc.head
    obtain ⟨values, hvalues, hcells, hcodes⟩ := ih hc.tail
    refine ⟨value :: values, .cons hcovered hvalues, ?_, ?_⟩
    · rintro (_ | i) hi
      · simpa using hvalue
      · rw [show column + (i + 1) = column + 1 + i by omega, List.getElem?_cons_succ]
        exact hcells i (Nat.lt_of_succ_lt_succ hi)
    · intro levels hl
      cases hl with
      | @cons _ level _ levels hlevel hl =>
        simp [generalizeFrom?, hvalue, hcoherent.generalize_eq hcovered hlevel, hcodes levels hl,
          List.zipWith3]

theorem generalizeFrom_congr {d other : Dataset} {row place column : Nat}
    {hierarchies : List Hierarchy} {levels : List Nat}
    (h : ∀ i < hierarchies.length,
      other.table.get? place (column + i) = d.table.get? row (column + i)) :
    other.generalizeFrom? place column hierarchies levels =
      d.generalizeFrom? row column hierarchies levels := by
  induction hierarchies generalizing column levels with
  | nil => rfl
  | cons first rest ih =>
    cases levels with
    | nil => rfl
    | cons level levels =>
      have hrest : other.generalizeFrom? place (column + 1) rest levels =
          d.generalizeFrom? row (column + 1) rest levels := by
        apply ih
        intro i hi
        have hnext := h (i + 1) (Nat.succ_lt_succ hi)
        rwa [show column + (i + 1) = column + 1 + i by omega] at hnext
      have hfirst := h 0 (Nat.succ_pos _)
      rw [Nat.add_zero] at hfirst
      rw [generalizeFrom?, generalizeFrom?, hfirst, hrest]

/-- Records with equal codes at low levels have equal codes at high levels. -/
theorem generalizeFrom_eq_of_le {d : Dataset} {r s column : Nat}
    {hierarchies : List Hierarchy} {low high : List Nat}
    (hr : d.CoveredFrom r column hierarchies) (hs : d.CoveredFrom s column hierarchies)
    (hle : List.Forall₂ (· ≤ ·) low high)
    (hl : List.Forall₂ (fun h level => level < h.height) hierarchies high)
    (he : d.generalizeFrom? r column hierarchies low =
      d.generalizeFrom? s column hierarchies low) :
    d.generalizeFrom? r column hierarchies high =
      d.generalizeFrom? s column hierarchies high := by
  induction hle generalizing column hierarchies with
  | nil =>
    cases hl
    rfl
  | @cons x y low high hxy hrest ih =>
    cases hl with
    | @cons h _ rest _ hlt hl =>
      obtain ⟨hcoherent, v, hv, hvc⟩ := hr.head
      obtain ⟨-, w, hw, hwc⟩ := hs.head
      have hlow : List.Forall₂ (fun h level => level < h.height) rest low := by
        have hd : ({ d with hierarchies := rest } : Dataset).Admits high := hl
        exact hd.of_le hrest
      obtain ⟨rcodes, hrcodes, -⟩ := exists_generalizeFrom hr.tail hlow
      obtain ⟨scodes, hscodes, -⟩ := exists_generalizeFrom hs.tail hlow
      obtain ⟨a, ha⟩ := hcoherent.exists_code hvc (lt_of_le_of_lt hxy hlt)
      obtain ⟨b, hb⟩ := hcoherent.exists_code hwc (lt_of_le_of_lt hxy hlt)
      simp only [generalizeFrom?, hv, hw, ha, hb, hrcodes, hscodes, Option.bind_eq_bind,
        Option.bind_some, Option.pure_def, Option.some.injEq, List.cons.injEq] at he
      obtain ⟨hab, hcodes⟩ := he
      have htail := ih hr.tail hs.tail hl (by rw [hrcodes, hscodes, hcodes])
      have hcode : h.generalize? v y = h.generalize? w y :=
        hcoherent.code_eq_of_le hvc hwc hxy hlt (by rw [ha, hb, hab])
      simp only [generalizeFrom?, hv, hw, hcode, htail, Option.bind_eq_bind, Option.bind_some]

namespace WellFormed

variable {d : Dataset} (hd : d.WellFormed)
include hd

theorem coveredFrom {row : Nat} (hr : row < d.records) :
    d.CoveredFrom row 0 d.hierarchies := by
  intro i h hi
  refine ⟨hd.coherent h (List.mem_of_getElem? hi), ?_⟩
  simpa using hd.covered row hr i h hi

theorem exists_record {row : Nat} (hr : row < d.records) : ∃ values,
    d.table.record? row = some values ∧
    List.Forall₂ (fun h value => value < h.domainSize) d.hierarchies values ∧
    ∀ levels, d.Admits levels → d.generalize? row levels =
      some (List.zipWith3 Hierarchy.code d.hierarchies values levels) := by
  obtain ⟨values, hvalues, hcells, hcodes⟩ := (hd.coveredFrom hr).exists_values
  have hlength : d.table.columns = values.length := hd.width ▸ hvalues.length_eq
  refine ⟨values, ?_, hvalues, hcodes⟩
  have hrecord : d.table.record? row =
      some ((List.range d.table.columns).map fun column => (values[column]?).getD 0) := by
    refine mapM_eq_some_map fun column hcolumn => ?_
    have hlt := List.mem_range.mp hcolumn
    have hcell := hcells column (hd.width ▸ hlt)
    rw [Nat.zero_add, List.getElem?_eq_getElem (hlength ▸ hlt)] at hcell
    rw [hcell, List.getElem?_eq_getElem (hlength ▸ hlt), Option.getD_some]
  rw [hrecord, hlength]
  congr 1
  refine List.ext_getElem (by simp) fun i _ hi => ?_
  simp [hi]

theorem generalize_eq {row : Nat} {levels : List Nat} (hr : row < d.records)
    (hl : d.Admits levels) : d.generalize? row levels = some (d.key levels row) := by
  obtain ⟨codes, hcodes, -⟩ := exists_generalizeFrom (hd.coveredFrom hr) hl
  simp [key, generalize?, hcodes]

theorem key_length {row : Nat} {levels : List Nat} (hr : row < d.records)
    (hl : d.Admits levels) : (d.key levels row).length = d.hierarchies.length := by
  obtain ⟨codes, hcodes, hlength⟩ := exists_generalizeFrom (hd.coveredFrom hr) hl
  simpa [key, generalize?, hcodes] using hlength

theorem inSubset_eq {row : Nat} (hr : row < d.records) :
    d.inSubset? row = some (d.member row) := by
  unfold member inSubset?
  cases hs : d.subset with
  | none => rfl
  | some members =>
    have hsize := hd.subset_size members (by simp [hs])
    simp [hsize, hr]

theorem sensitiveOf_eq {row : Nat} (hr : row < d.records) :
    d.sensitiveOf? row = some (d.sensitiveValue row) := by
  unfold sensitiveValue sensitiveOf?
  cases hs : d.sensitive with
  | none => rfl
  | some values =>
    have hsize := hd.sensitive_size values (by simp [hs])
    simp [hsize, hr]

theorem recordContribution_eq {row : Nat} {levels : List Nat} (hr : row < d.records)
    (hl : d.Admits levels) :
    d.recordContribution? levels row = some (d.contribution levels row) := by
  simp [recordContribution?, hd.generalize_eq hr hl, hd.sensitiveOf_eq hr, hd.inSubset_eq hr,
    contribution]

theorem key_eq_of_le {r s : Nat} {low high : List Nat} (hr : r < d.records)
    (hs : s < d.records) (hle : List.Forall₂ (· ≤ ·) low high) (hl : d.Admits high)
    (he : d.key low r = d.key low s) : d.key high r = d.key high s := by
  have hlow := hl.of_le hle
  have heq : d.generalize? r low = d.generalize? s low := by
    rw [hd.generalize_eq hr hlow, hd.generalize_eq hs hlow, he]
  unfold key
  rw [show d.generalize? r high = d.generalize? s high from
    generalizeFrom_eq_of_le (hd.coveredFrom hr) (hd.coveredFrom hs) hle hl heq]

/-- Keys at high levels are a function of keys at low levels. -/
theorem exists_coarsening {low high : List Nat} (hle : List.Forall₂ (· ≤ ·) low high)
    (hl : d.Admits high) :
    ∃ coarsen : List Nat → List Nat,
      ∀ row < d.records, d.key high row = coarsen (d.key low row) := by
  have hfactor : Function.FactorsThrough (fun row : Fin d.records => d.key high row)
      (fun row : Fin d.records => d.key low row) :=
    fun r s he => hd.key_eq_of_le r.isLt s.isLt hle hl he
  exact ⟨_, fun row hr => (hfactor.extend_apply (fun _ => []) ⟨row, hr⟩).symm⟩

end WellFormed
end Recoding.Dataset
