import Recoding.Proofs.Grouping.Sizes
import Recoding.Proofs.Outcome
import Recoding.Proofs.Sample

/-!
# Sensitivity of the discernability score

The score is the number of ordered pairs of records in one class, divided by the number of
records and negated. One more record adds a pair with itself and two with every record of its
class, so it moves the quotient by at most 1, wherever it stands. A record outside the research
subset adds nothing.
-/

namespace Recoding

namespace Dataset

/-- The place of a row once one more record stands at the given place. -/
def shifted (place row : Nat) : Nat := if row < place then row else row + 1

/-- A dataset that has the records of another one and, at the given place, one more. -/
structure Joins (d more : Dataset) (place : Nat) : Prop where
  hierarchies : more.hierarchies = d.hierarchies
  records : more.records = d.records + 1
  place_le : place ≤ d.records
  values : ∀ row < d.records, ∀ column < d.hierarchies.length,
    more.table.get? (shifted place row) column = d.table.get? row column
  subset : ∀ row < d.records, more.inSubset? (shifted place row) = d.inSubset? row

/-- The pairs of records of the research subset that are in one class. -/
def pairs (d : Dataset) (levels : List Nat) : Nat :=
  ∑ row ∈ d.members, (d.membersWith levels (d.key levels row)).card

section
variable {d : Dataset} {levels : List Nat}

theorem pairs_eq (d : Dataset) (levels : List Nat) : d.pairs levels =
    ∑ row ∈ Finset.range d.records,
      if d.member row = true then (d.membersWith levels (d.key levels row)).card else 0 :=
  Finset.sum_filter _ _

theorem card_membersWith_eq (d : Dataset) (levels key : List Nat) :
    (d.membersWith levels key).card = ∑ row ∈ Finset.range d.records,
      if d.member row = true ∧ d.key levels row = key then 1 else 0 := by
  rw [membersWith, members, Finset.filter_filter, Finset.card_filter]

theorem sq_card_le_pairs (d : Dataset) (levels key : List Nat) :
    (d.membersWith levels key).card * (d.membersWith levels key).card ≤ d.pairs levels := by
  have hclass : ∀ row ∈ d.membersWith levels key,
      (d.membersWith levels (d.key levels row)).card = (d.membersWith levels key).card := by
    intro row hrow
    rw [(mem_membersWith.mp hrow).2]
  rw [← Finset.sum_const_nat hclass]
  exact Finset.sum_le_sum_of_subset (Finset.filter_subset _ _)

theorem pairs_le (d : Dataset) (levels : List Nat) :
    d.pairs levels ≤ d.members.card * d.members.card := by
  have hbound := (d.sum_squares_bounds false levels).2
  rwa [sum_squares] at hbound

theorem WellFormed.subsetSize_le_pairs (hd : d.WellFormed) (levels : List Nat) :
    d.subsetSize ≤ d.pairs levels := by
  have hbound := (d.sum_squares_bounds false levels).1
  rwa [sum_squares, hd.card_members] at hbound

theorem WellFormed.pairs_mono (hd : d.WellFormed) {low high : List Nat}
    (hle : List.Forall₂ (· ≤ ·) low high) (hh : d.Admits high) : d.pairs low ≤ d.pairs high := by
  have hsquares := hd.sum_squares_mono hle hh false
  rwa [sum_squares, sum_squares] at hsquares

end

/-! ## One more record -/

/-- A sum over all rows is one over the old rows, where they now stand, and the new one. -/
theorem sum_range_shifted {n place : Nat} (h : place ≤ n) (f : Nat → Nat) :
    ∑ row ∈ Finset.range (n + 1), f row =
      f place + ∑ row ∈ Finset.range n, f (shifted place row) := by
  have hplace : ∀ row : Fin n,
      (Fin.succAbove ⟨place, Nat.lt_succ_of_le h⟩ row).val = shifted place row := by
    intro row
    unfold Fin.succAbove shifted
    split_ifs with hlt hlt'
    · rfl
    · exact absurd hlt hlt'
    · exact absurd (show row.castSucc < ⟨place, _⟩ by assumption) hlt
    · rfl
  rw [Finset.sum_range, Finset.sum_range,
    Fin.sum_univ_succAbove _ ⟨place, Nat.lt_succ_of_le h⟩]
  simp only [hplace]

namespace Joins

variable {d more : Dataset} {place : Nat} (h : d.Joins more place)
include h

theorem key {row : Nat} (hr : row < d.records) (levels : List Nat) :
    more.key levels (shifted place row) = d.key levels row := by
  have hcodes : more.generalizeFrom? (shifted place row) 0 d.hierarchies levels =
      d.generalizeFrom? row 0 d.hierarchies levels :=
    generalizeFrom_congr fun i hi => (Nat.zero_add i).symm ▸ h.values row hr i hi
  unfold Dataset.key generalize?
  rw [h.hierarchies, hcodes]

theorem member {row : Nat} (hr : row < d.records) :
    more.member (shifted place row) = d.member row := by
  unfold Dataset.member
  rw [h.subset row hr]

theorem card_membersWith (levels key : List Nat) : (more.membersWith levels key).card =
    (if more.member place = true ∧ more.key levels place = key then 1 else 0) +
      (d.membersWith levels key).card := by
  rw [card_membersWith_eq, card_membersWith_eq, h.records, sum_range_shifted h.place_le]
  congr 1
  refine Finset.sum_congr rfl fun row hrow => ?_
  have hr := Finset.mem_range.mp hrow
  rw [h.member hr, h.key hr]

theorem card_members : more.members.card =
    (if more.member place = true then 1 else 0) + d.members.card := by
  rw [members, members, Finset.card_filter, Finset.card_filter, h.records,
    sum_range_shifted h.place_le]
  congr 1
  refine Finset.sum_congr rfl fun row hrow => ?_
  rw [h.member (Finset.mem_range.mp hrow)]

/-- The new record pairs with itself and, twice, with every old one of its class. -/
theorem pairs_of_member (hm : more.member place = true) (levels : List Nat) :
    more.pairs levels =
      d.pairs levels + 2 * (d.membersWith levels (more.key levels place)).card + 1 := by
  have hold : ∀ row ∈ Finset.range d.records,
      (if more.member (shifted place row) = true then
        (more.membersWith levels (more.key levels (shifted place row))).card else 0) =
      (if d.member row = true then (d.membersWith levels (d.key levels row)).card else 0) +
        if d.member row = true ∧ d.key levels row = more.key levels place then 1 else 0 := by
    intro row hrow
    have hr := Finset.mem_range.mp hrow
    rw [h.member hr, h.key hr, h.card_membersWith]
    cases d.member row with
    | false => simp
    | true => simp [hm, eq_comm, Nat.add_comm]
  rw [pairs_eq, pairs_eq, h.records, sum_range_shifted h.place_le, if_pos hm,
    Finset.sum_congr rfl hold, Finset.sum_add_distrib, ← card_membersWith_eq,
    h.card_membersWith, if_pos ⟨hm, rfl⟩]
  omega

/-- Outside the research subset the new record pairs with none. -/
theorem pairs_of_not_member (hm : more.member place = false) (levels : List Nat) :
    more.pairs levels = d.pairs levels := by
  rw [pairs_eq, pairs_eq, h.records, sum_range_shifted h.place_le, hm, if_neg Bool.false_ne_true,
    Nat.zero_add]
  refine Finset.sum_congr rfl fun row hrow => ?_
  have hr := Finset.mem_range.mp hrow
  rw [h.member hr, h.key hr, h.card_membersWith, hm]
  simp

end Joins
end Dataset

/-! ## Scores -/

/-- The score of a dataset by a scan of all its records, in however many parts. -/
def Metric.scanScore (m : Metric) (d : Dataset) (levels : List Nat) (tracks : Bool)
    (workers minRecords : Nat) : Except Failure Rat := do
  let m ← m.prepare d
  let g ← Failure.found (d.group? levels .records tracks workers minRecords)
  m.score levels g

theorem Metric.scanScore_discernability {d : Dataset} (hd : d.WellFormed) {levels : List Nat}
    (hl : d.Admits levels) (prior : Option Nat) (tracks : Bool) (workers minRecords : Nat) :
    (discernability prior).scanScore d levels tracks workers minRecords =
      .ok (-((d.pairs levels : ℚ) / d.members.card)) := by
  have hscore : (discernability (some d.subsetSize)).score levels (d.grouping tracks levels) =
      .ok (-mkRat (((d.grouping tracks levels).classes.map
        fun e => e.count * e.count).sum : Nat) d.subsetSize) := rfl
  unfold scanScore
  rw [hd.group_records hl]
  show (discernability (some d.subsetSize)).score levels (d.grouping tracks levels) = _
  rw [hscore, Dataset.sum_squares, ← hd.card_members, Rat.mkRat_eq_div]
  simp [Dataset.pairs]

/-- A quotient moves by at most 1 if its divisor grows by 1 and its dividend from one number
between two squares by the difference of the next ones. -/
theorem abs_quotient_sub_le {n pairs own : Nat} (hown : own * own ≤ pairs)
    (hpairs : pairs ≤ n * n) :
    |-(((pairs + 2 * own + 1 : Nat) : ℚ) / ((1 + n : Nat) : ℚ)) - -((pairs : ℚ) / n)| ≤ 1 := by
  rcases Nat.eq_zero_or_pos n with rfl | hn
  · have hzero : pairs = 0 := by omega
    subst hzero
    have hzero : own = 0 := by simpa using hown
    subst hzero
    norm_num
  · have hlow : (own : ℚ) * own ≤ pairs := by exact_mod_cast hown
    have hhigh : (pairs : ℚ) ≤ n * n := by exact_mod_cast hpairs
    have hpos : (0 : ℚ) < n := by exact_mod_cast hn
    have hquotient : -(((pairs + 2 * own + 1 : Nat) : ℚ) / ((1 + n : Nat) : ℚ)) -
        -((pairs : ℚ) / n) = (pairs - n * (2 * own + 1)) / (n * (n + 1)) := by
      push_cast
      field_simp
      ring
    rw [hquotient, abs_le, le_div_iff₀ (by positivity), div_le_iff₀ (by positivity)]
    constructor
    · nlinarith [sq_nonneg ((n : ℚ) - own)]
    · nlinarith [mul_nonneg hpos.le (Nat.cast_nonneg (α := ℚ) own)]

/-- One more record in the research subset moves the score of a full scan by at most 1, and one
outside it leaves the score as it is. -/
theorem Metric.discernability_sensitivity {d more : Dataset} (hd : d.Accepted)
    (hmore : more.Accepted) {place : Nat} (h : d.Joins more place) {levels : List Nat}
    (hl : d.Admits levels) (prior others : Option Nat) (tracks tracksMore : Bool)
    (workers workersMore minRecords minRecordsMore : Nat) : ∃ q r : ℚ,
      (discernability prior).scanScore d levels tracks workers minRecords = .ok q ∧
      (discernability others).scanScore more levels tracksMore workersMore minRecordsMore =
        .ok r ∧
      (more.inSubset? place = some true → |r - q| ≤ 1) ∧
      (more.inSubset? place = some false → r = q) := by
  have hlmore : more.Admits levels := by
    unfold Dataset.Admits
    rw [h.hierarchies]
    exact hl
  refine ⟨_, _, scanScore_discernability hd.wellFormed hl prior tracks workers minRecords,
    scanScore_discernability hmore.wellFormed hlmore others tracksMore workersMore
      minRecordsMore, fun hin => ?_, fun hout => ?_⟩
  · have hmember : more.member place = true := by rw [Dataset.member, hin, Option.getD_some]
    rw [h.pairs_of_member hmember, h.card_members, if_pos hmember]
    exact abs_quotient_sub_le (d.sq_card_le_pairs levels _) (d.pairs_le levels)
  · have hmember : more.member place = false := by rw [Dataset.member, hout, Option.getD_some]
    rw [h.pairs_of_not_member hmember, h.card_members, if_neg (by rw [hmember]; decide),
      Nat.zero_add]

namespace Sample

def single : Dataset := ⟨.tabulate 1 1 fun row _ => row, [hierarchy], [0], [1], none, none, none⟩

theorem single_accepted : single.Accepted :=
  .ofTable (show ∀ h ∈ [hierarchy], h.Accepted by simp [hierarchy_accepted])
    (show Dataset.ofTable (.tabulate 1 1 fun row _ => row) [hierarchy] [] = .ok single from rfl)

theorem single_joins : single.Joins dataset 1 where
  hierarchies := rfl
  records := rfl
  place_le := le_rfl
  values := by decide
  subset := by decide

end Sample

open Sample in
/-- Where both records of the sample are in one class, the bound is reached. -/
theorem Metric.discernability_sensitivity_sample :
    (discernability none).scanScore single [1] false 1 1 = .ok (-1) ∧
      (discernability none).scanScore dataset [1] false 2 1 = .ok (-2) ∧ |(-2 : ℚ) - -1| ≤ 1 := by
  obtain ⟨q, r, hq, hr, hin, -⟩ := discernability_sensitivity single_accepted dataset_accepted
    single_joins (show single.Admits [1] from .cons (by decide) .nil) none none false false
    1 2 1 1
  have hsingle : ((discernability none).scanScore single [1] false 1 1).toOption =
      some (-1) := by decide +kernel
  have hboth : ((discernability none).scanScore dataset [1] false 2 1).toOption =
      some (-2) := by decide +kernel
  rw [hq] at hsingle ⊢
  rw [hr] at hboth ⊢
  cases Option.some.inj hsingle
  cases Option.some.inj hboth
  exact ⟨rfl, rfl, hin rfl⟩

end Recoding
