import Mathlib.Data.Set.Card.Arithmetic
import Recoding.Proofs.Lattice.Coordinates

/-!
# Descents from the top

A predecessor lowers one level by one. Every transformation is reached from the top by such
steps, and in how many ways it is reached is the sum of the numbers of ways to its successors.
-/

namespace Recoding.Lattice

/-! ## Predecessors -/

theorem raises_cons_iff {low : List Nat} {level : Nat} {levels : List Nat} :
    Raises low (level :: levels) ↔ (∃ below, level = below + 1 ∧ low = below :: levels) ∨
      ∃ rest, Raises rest levels ∧ low = level :: rest := by
  constructor
  · intro h
    cases h with
    | head below => exact Or.inl ⟨below, rfl, rfl⟩
    | tail _ rest => exact Or.inr ⟨_, rest, rfl⟩
  · rintro (⟨below, rfl, rfl⟩ | ⟨rest, h, rfl⟩)
    · exact Raises.head below levels
    · exact Raises.tail level h

theorem exists_below_iff {a : Axis} {axes : List Axis} {level : Nat} {levels : List Nat}
    (h : Within (a :: axes) (level :: levels)) {id weight w : Nat}
    (hid : weight * encode (a :: axes) (level :: levels) ≤ id) :
    (w = id - weight ∧ a.low < level) ↔ ∃ below, level = below + 1 ∧
      Within (a :: axes) (below :: levels) ∧
        w + weight * encode (a :: axes) (level :: levels) =
          id + weight * encode (a :: axes) (below :: levels) := by
  obtain ⟨hl, hrest⟩ := List.forall₂_cons.mp h
  constructor
  · rintro ⟨rfl, hlt⟩
    obtain ⟨below, rfl⟩ : ∃ below, level = below + 1 := ⟨level - 1, by omega⟩
    have hstep := mul_encode_succ (Nat.lt_succ_iff.mp hlt) weight axes levels
    exact ⟨below, rfl, List.Forall₂.cons ⟨by omega, by omega⟩ hrest, by omega⟩
  · rintro ⟨below, rfl, hw, heq⟩
    have hlevel := (List.forall₂_cons.mp hw).1
    rw [mul_encode_succ hlevel.1] at heq hid
    exact ⟨by omega, by omega⟩

theorem mem_stepsDown {axes : List Axis} {levels : List Nat} (h : Within axes levels)
    {id weight w : Nat} (hid : weight * encode axes levels ≤ id) :
    w ∈ stepsDown id weight axes levels ↔ ∃ low, Raises low levels ∧ Within axes low ∧
      w + weight * encode axes levels = id + weight * encode axes low := by
  induction h generalizing weight with
  | nil => exact ⟨fun hw => absurd hw List.not_mem_nil, fun ⟨_, hraise, _⟩ => nomatch hraise⟩
  | @cons a level axes levels hl hrest ih =>
    have hstep := exists_below_iff (w := w) (List.Forall₂.cons hl hrest) hid
    rw [mul_encode_cons] at hid
    have htail := (ih (by omega)).trans (exists_tail_iff hl levels id weight w)
    have hsplit : w ∈ stepsDown id weight (a :: axes) (level :: levels) ↔
        (w = id - weight ∧ a.low < level) ∨
          w ∈ stepsDown id (weight * a.radix) axes levels := by
      simp only [stepsDown]
      split_ifs with hlt <;> simp [hlt]
    rw [hsplit, hstep, htail]
    constructor
    · rintro (⟨below, hlevel, hw⟩ | ⟨low, hraise, hw⟩)
      · exact ⟨below :: levels, raises_cons_iff.mpr (Or.inl ⟨below, hlevel, rfl⟩), hw⟩
      · exact ⟨level :: low, Raises.tail level hraise, hw⟩
    · rintro ⟨low, hraise, hw⟩
      rcases raises_cons_iff.mp hraise with ⟨below, hlevel, rfl⟩ | ⟨rest, hr, rfl⟩
      · exact Or.inl ⟨below, hlevel, hw⟩
      · exact Or.inr ⟨rest, hr, hw⟩

theorem length_stepsDown_le (id weight : Nat) (axes : List Axis) (levels : List Nat) :
    (stepsDown id weight axes levels).length ≤ axes.length := by
  induction axes generalizing weight levels with
  | nil => simp [stepsDown]
  | cons a axes ih =>
    cases levels with
    | nil => simp [stepsDown]
    | cons level levels =>
      have hrest := ih (weight * a.radix) levels
      unfold stepsDown
      dsimp only
      split_ifs
      · simpa using hrest
      · exact hrest.trans (Nat.le_succ _)

theorem length_predecessors_le {l : Lattice} {id : Nat} {ids : List Nat}
    (h : l.predecessors id = .ok ids) : ids.length ≤ l.dimensions := by
  obtain ⟨levels, -, rfl⟩ := map_eq_ok.mp h
  exact length_stepsDown_le id 1 l.axes levels

theorem predecessors_ok {l : Lattice} {id : Nat} {ids : List Nat}
    (h : l.predecessors id = .ok ids) : id < l.size ∧ ∀ w, w ∈ ids ↔ l.Step w id := by
  have hid : id < l.size := by
    by_contra hid
    rw [predecessors, levelsOf, if_neg hid] at h
    cases h
  rw [predecessors, levelsOf_levelsAt hid] at h
  cases h
  refine ⟨hid, fun w => ?_⟩
  have hencode := encode_decode hid
  have hwithin := decode_within l.axes id
  unfold levelsAt
  rw [mem_stepsDown hwithin (by rw [hencode, Nat.one_mul])]
  constructor
  · rintro ⟨low, hraise, hlow, heq⟩
    have hw : w = encode l.axes low := by omega
    have hlt : w < l.size := hw ▸ hlow.encode_lt
    refine ⟨hlt, hid, ?_⟩
    rw [levelsAt, hw, hlow.decode_encode]
    exact hraise
  · rintro ⟨hw, -, hraise⟩
    exact ⟨_, hraise, decode_within l.axes w, by
      have hsame := encode_decode hw
      unfold levelsAt
      omega⟩

/-! ## The top -/

theorem decode_top (axes : List Axis) : decode axes (volume axes - 1) = axes.map Axis.high := by
  have hhigh : Within axes (axes.map Axis.high) := by
    induction axes with
    | nil => exact List.Forall₂.nil
    | cons a axes ih => exact List.Forall₂.cons ⟨a.low_le_high, le_rfl⟩ ih
  have hencode : encode axes (axes.map Axis.high) = volume axes - 1 := by
    clear hhigh
    induction axes with
    | nil => rfl
    | cons a axes ih =>
      have hpos := volume_pos axes
      have hvolume : a.radix * volume axes = a.radix * (volume axes - 1) + a.radix := by
        rw [← Nat.mul_succ]
        congr 1
        omega
      have hlow := a.low_le_high
      simp only [List.map_cons, encode, volume]
      rw [ih, hvolume, Axis.radix]
      omega
  rw [← hencode, hhigh.decode_encode]

section
variable {l : Lattice} {v : Nat}

theorem top_lt_size (l : Lattice) : l.top < l.size := Nat.sub_lt l.size_pos Nat.one_pos

theorem levelsAt_top (l : Lattice) : l.levelsAt l.top = l.maxLevels := decode_top l.axes

theorem eq_top_iff (hv : v < l.size) : v = l.top ↔ l.levelsAt v = l.maxLevels := by
  constructor
  · rintro rfl
    exact l.levelsAt_top
  · intro h
    refine levelsOf_inj (levelsOf_levelsAt hv) ?_
    rw [h, ← l.levelsAt_top]
    exact levelsOf_levelsAt l.top_lt_size

theorem exists_raises_above {low high : List Nat} (h : List.Forall₂ (· ≤ ·) low high)
    (hne : low ≠ high) : ∃ middle, Raises low middle ∧ List.Forall₂ (· ≤ ·) middle high := by
  induction h with
  | nil => exact absurd rfl hne
  | @cons x y low high hxy hrest ih =>
    by_cases hlt : x < y
    · exact ⟨(x + 1) :: low, Raises.head x low, List.Forall₂.cons hlt hrest⟩
    · have hxy : x = y := by omega
      subst hxy
      obtain ⟨middle, hraise, hle⟩ := ih fun he => hne (by rw [he])
      exact ⟨x :: middle, Raises.tail x hraise, List.Forall₂.cons le_rfl hle⟩

theorem exists_step (hv : v < l.size) (hne : v ≠ l.top) : ∃ p, l.Step v p := by
  have hwithin := decode_within l.axes v
  have htop : Within l.axes l.maxLevels := by
    rw [← l.levelsAt_top]
    exact decode_within l.axes l.top
  obtain ⟨middle, hraise, hle⟩ := exists_raises_above hwithin.le_high
    fun he => hne ((eq_top_iff hv).mpr he)
  have hmiddle : Within l.axes middle := hwithin.of_le htop hraise.le hle
  refine ⟨encode l.axes middle, hv, hmiddle.encode_lt, ?_⟩
  rw [levelsAt, levelsAt, hmiddle.decode_encode]
  exact hraise

theorem sum_levelsAt_le (l : Lattice) (v : Nat) : (l.levelsAt v).sum ≤ l.maxLevels.sum :=
  (decode_within l.axes v).le_high.sum_le_sum

theorem levelSum_levelsAt (l : Lattice) (h : l.maxLevels.sum < 2 ^ 32) (v : Nat) :
    levelSum (l.levelsAt v) = (l.levelsAt v).sum :=
  levelSum_eq ((l.sum_levelsAt_le v).trans_lt h)

theorem Step.ne {p : Nat} (h : l.Step v p) : v ≠ p := by
  rintro rfl
  have hsum := h.raises.sum
  omega

theorem not_step_top (l : Lattice) (p : Nat) : ¬l.Step l.top p := by
  intro h
  have hsum := h.raises.sum
  have hle := l.sum_levelsAt_le p
  rw [l.levelsAt_top] at hsum
  omega

/-- A property of every transformation all of whose successors have it is one of all
transformations. -/
theorem descend {P : Nat → Prop}
    (h : ∀ v < l.size, (∀ p, l.Step v p → P p) → P v) (hv : v < l.size) : P v := by
  induction hn : l.maxLevels.sum - (l.levelsAt v).sum using Nat.strong_induction_on
    generalizing v with
  | _ n ih =>
    refine h v hv fun p hp => ?_
    have hsum := hp.raises.sum
    have hle := l.sum_levelsAt_le p
    exact ih _ (by omega) hp.right rfl

/-! ## Chains -/

/-- A chain of single steps from the top down to the transformation that comes first. -/
inductive Descent (l : Lattice) : List Nat → Prop
  | top : Descent l [l.top]
  | step {v p : Nat} {chain : List Nat} (first : l.Step v p) (rest : Descent l (p :: chain)) :
      Descent l (v :: p :: chain)

/-- The ways down to a transformation: what is passed before it, up to the top. -/
def descents (l : Lattice) (v : Nat) : Set (List Nat) := {chain | l.Descent (v :: chain)}

theorem mem_descents {chain : List Nat} : chain ∈ l.descents v ↔ (v = l.top ∧ chain = []) ∨
    ∃ p rest, chain = p :: rest ∧ l.Step v p ∧ rest ∈ l.descents p := by
  constructor
  · intro h
    cases h with
    | top => exact Or.inl ⟨rfl, rfl⟩
    | step first rest => exact Or.inr ⟨_, _, rfl, first, rest⟩
  · rintro (⟨rfl, rfl⟩ | ⟨p, rest, rfl, first, hrest⟩)
    · exact Descent.top
    · exact Descent.step first hrest

theorem finite_descents (hv : v < l.size) : (l.descents v).Finite := by
  refine l.descend (P := fun v => (l.descents v).Finite) (fun v _ ih => ?_) hv
  have hcover : l.descents v ⊆ {[]} ∪
      ⋃ p ∈ {p | l.Step v p}, (List.cons p) '' l.descents p := by
    intro chain hchain
    rcases mem_descents.mp hchain with ⟨-, rfl⟩ | ⟨p, rest, rfl, hp, hrest⟩
    · exact Or.inl rfl
    · exact Or.inr (Set.mem_biUnion hp ⟨rest, hrest, rfl⟩)
  have hsuccessors : {p | l.Step v p}.Finite :=
    (Set.finite_lt_nat l.size).subset fun p hp => hp.right
  exact ((Set.finite_singleton []).union
    (hsuccessors.biUnion fun p hp => (ih p hp).image _)).subset hcover

theorem ncard_descents_top (l : Lattice) : (l.descents l.top).ncard = 1 := by
  rw [Set.ncard_eq_one]
  refine ⟨[], Set.ext fun chain => ?_⟩
  rw [mem_descents, Set.mem_singleton_iff]
  constructor
  · rintro (⟨-, rfl⟩ | ⟨p, -, -, hp, -⟩)
    · rfl
    · exact absurd hp (l.not_step_top p)
  · rintro rfl
    exact Or.inl ⟨rfl, rfl⟩

open scoped Classical in
/-- The transformations one step more generalized, as a finite set. -/
noncomputable def above (l : Lattice) (v : Nat) : Finset Nat :=
  (Finset.range l.size).filter (l.Step v)

theorem mem_above {p : Nat} : p ∈ l.above v ↔ l.Step v p := by
  classical
  rw [above, Finset.mem_filter, Finset.mem_range]
  exact ⟨And.right, fun h => ⟨h.right, h⟩⟩

/-- The ways down to a transformation continue those to its successors. -/
theorem ncard_descents (hne : v ≠ l.top) :
    (l.descents v).ncard = ∑ p ∈ l.above v, (l.descents p).ncard := by
  have hunion : l.descents v = ⋃ p ∈ (l.above v : Set Nat), (List.cons p) '' l.descents p := by
    ext chain
    rw [mem_descents, Set.mem_iUnion₂]
    constructor
    · rintro (⟨htop, -⟩ | ⟨p, rest, rfl, hp, hrest⟩)
      · exact absurd htop hne
      · exact ⟨p, mem_above.mpr hp, rest, hrest, rfl⟩
    · rintro ⟨p, hp, rest, hrest, rfl⟩
      exact Or.inr ⟨p, rest, rfl, mem_above.mp hp, hrest⟩
  have hdisjoint : (l.above v : Set Nat).PairwiseDisjoint
      fun p => (List.cons p) '' l.descents p := by
    intro p _ q _ hpq
    refine Set.disjoint_left.mpr ?_
    rintro _ ⟨first, _, rfl⟩ ⟨second, _, he⟩
    exact hpq (List.cons.inj he).1.symm
  rw [hunion, Set.Finite.ncard_biUnion (Finset.finite_toSet _)
    (fun p hp => (finite_descents (mem_above.mp hp).right).image _) hdisjoint,
    finsum_mem_coe_finset]
  exact Finset.sum_congr rfl fun p _ =>
    Set.ncard_image_of_injective _ List.cons_injective

/-! ## Counting by steps -/

theorem countP_le_sum_count {P : Nat → Prop} [DecidablePred P] {s : Finset Nat}
    (h : ∀ p, P p → p ∈ s) (xs : List Nat) : xs.countP P ≤ ∑ p ∈ s, xs.count p := by
  have hmem : ∀ p ∈ (xs.filter P : Multiset Nat), p ∈ s := by
    intro p hp
    rw [Multiset.mem_coe, List.mem_filter, decide_eq_true_iff] at hp
    exact h p hp.2
  have hcard := Multiset.sum_count_eq_card hmem
  rw [Multiset.coe_card, ← List.countP_eq_length_filter] at hcard
  rw [← hcard]
  refine Finset.sum_le_sum fun p _ => ?_
  rw [Multiset.coe_count]
  exact List.filter_sublist.count_le p

end

section
open scoped Classical

variable {l : Lattice} {drawn : List Nat}
  (hcount : ∀ v, drawn.count v ≤ (l.top :: drawn).countP (l.Step v))
include hcount

/-- Whatever is listed at most as often as its successors are, once for the top, is not the top. -/
theorem lt_top_of_mem {v : Nat} (hv : v ∈ drawn) : v < l.top := by
  have hpos : 0 < (l.top :: drawn).countP (l.Step v) :=
    (List.count_pos_iff.mpr hv).trans_le (hcount v)
  obtain ⟨p, -, hp⟩ := List.countP_pos_iff.mp hpos
  have hstep : l.Step v p := of_decide_eq_true hp
  have hne : v ≠ l.top := by
    rintro rfl
    exact l.not_step_top p hstep
  have hlt := hstep.left
  unfold top at hne ⊢
  omega

theorem count_le_ncard_descents {v : Nat} (hv : v < l.size) :
    (l.top :: drawn).count v ≤ (l.descents v).ncard := by
  refine l.descend (P := fun v => (l.top :: drawn).count v ≤ (l.descents v).ncard)
    (fun v _ ih => ?_) hv
  by_cases he : v = l.top
  · have htop : l.top ∉ drawn := fun hmem => absurd (lt_top_of_mem hcount hmem) (lt_irrefl _)
    rw [he, List.count_cons_self, List.count_eq_zero_of_not_mem htop, ncard_descents_top]
  · have hbound : (l.top :: drawn).countP (l.Step v) ≤
        ∑ p ∈ l.above v, (l.top :: drawn).count p :=
      countP_le_sum_count (fun p hp => mem_above.mpr hp) _
    rw [List.count_cons_of_ne (Ne.symm he), ncard_descents he]
    exact (hcount v).trans (hbound.trans
      (Finset.sum_le_sum fun p hp => ih p (mem_above.mp hp)))

/-- So the whole list is no longer than there are ways down to anything below the top. -/
theorem length_le_sum_descents :
    drawn.length ≤ ∑ v ∈ Finset.range l.top, (l.descents v).ncard := by
  have hmem : ∀ v ∈ (drawn : Multiset Nat), v ∈ Finset.range l.top := fun v hv =>
    Finset.mem_range.mpr (lt_top_of_mem hcount (Multiset.mem_coe.mp hv))
  have hcard := Multiset.sum_count_eq_card hmem
  rw [Multiset.coe_card] at hcard
  rw [← hcard]
  refine Finset.sum_le_sum fun v hv => ?_
  have hlt := Finset.mem_range.mp hv
  have hle := count_le_ncard_descents hcount (hlt.trans l.top_lt_size)
  rw [List.count_cons_of_ne hlt.ne'] at hle
  rwa [Multiset.coe_count]

end

end Recoding.Lattice
