import Recoding.Grouping.Overflow
import Recoding.Proofs.Binary64.Rounding
import Recoding.Proofs.Grouping.Partition

/-!
# When counters overflow

An operation on a table in machine words gives what the operation on unbounded tables gives if
every counter of the result fits into 64 bits, and nothing otherwise. Counters only grow, so it
does not matter in which order contributions are added up.
-/

namespace Recoding

theorem sum?_eq (ns : List Nat) : sum? ns = word? ns.sum := by
  have hfrom : ∀ (ns : List Nat) (start : Nat), start < 2 ^ 64 →
      ns.foldlM (fun sum n => word? (sum + n)) start = word? (start + ns.sum) := by
    intro ns
    induction ns with
    | nil =>
      intro start hstart
      exact (word?_eq hstart).symm
    | cons n ns ih =>
      intro start hstart
      rw [List.foldlM_cons, List.sum_cons]
      by_cases hlt : start + n < 2 ^ 64
      · rw [word?_eq hlt, ← Nat.add_assoc]
        exact ih _ hlt
      · rw [word?, if_neg hlt, word?, if_neg (by omega)]
        rfl
  have hsum := hfrom ns 0 (by decide)
  rwa [Nat.zero_add] at hsum

/-! ## Counters of a class -/

namespace Distribution
variable {d : Distribution}

def Fits (d : Distribution) : Prop := ∀ v, d.frequency v < 2 ^ 64

theorem Canonical.add?_iff (hd : d.Canonical) (hf : d.Fits) {value frequency : Nat}
    {r : Distribution} :
    d.add? value frequency = some r ↔ r = d.add value frequency ∧ r.Fits := by
  unfold add?
  constructor
  · intro h
    obtain ⟨_, hword, h⟩ := Option.bind_eq_some_iff.mp h
    cases h
    refine ⟨rfl, fun v => ?_⟩
    rw [hd.frequency_add]
    split_ifs with hv
    · rw [hv]
      exact (word?_eq_some.mp hword).2
    · exact hf v
  · rintro ⟨rfl, hfits⟩
    have hvalue := hfits value
    rw [hd.frequency_add, if_pos rfl] at hvalue
    rw [word?_eq hvalue]
    rfl

theorem Canonical.addEntries?_iff {entries : List (Nat × Nat)}
    (hascending : entries.Pairwise (·.1 < ·.1)) (hd : d.Canonical) (hf : d.Fits)
    {r : Distribution} :
    entries.foldlM (fun d (value, frequency) => d.add? value frequency) d = some r ↔
      r = entries.foldl (fun d (value, frequency) => d.add value frequency) d ∧ r.Fits := by
  induction entries generalizing d with
  | nil =>
    constructor
    · rintro ⟨⟩
      exact ⟨rfl, hf⟩
    · rintro ⟨rfl, -⟩
      rfl
  | cons first rest ih =>
    obtain ⟨value, frequency⟩ := first
    have hrest := (List.pairwise_cons.mp hascending).2
    have hadd := hd.add value frequency
    rw [List.foldlM_cons, List.foldl_cons]
    constructor
    · intro h
      obtain ⟨own, hown, h⟩ := Option.bind_eq_some_iff.mp h
      obtain ⟨rfl, hfits⟩ := (hd.add?_iff hf).mp hown
      exact (ih hrest hadd hfits).mp h
    · rintro ⟨rfl, hfits⟩
      -- what is added later only makes frequencies larger
      have hfirst : (d.add value frequency).Fits := fun v => by
        have hlater := hfits v
        rw [(hadd.addEntries hrest).2 v] at hlater
        omega
      exact Option.bind_eq_some_iff.mpr
        ⟨_, (hd.add?_iff hf).mpr ⟨rfl, hfirst⟩, (ih hrest hadd hfirst).mpr ⟨rfl, hfits⟩⟩

theorem combine?_iff {d other r : Option Distribution} (hd : ∀ x ∈ d, x.Canonical)
    (hother : ∀ x ∈ other, x.Canonical) (hf : ∀ v, occurrences d v < 2 ^ 64) :
    combine? d other = some r ↔ r = combine d other ∧ ∀ v, occurrences r v < 2 ^ 64 := by
  cases other with
  | none =>
    constructor
    · rintro ⟨⟩
      exact ⟨rfl, hf⟩
    · rintro ⟨rfl, -⟩
      rfl
  | some other =>
    have hbase : (d.getD empty).Canonical := by
      cases d with
      | none => exact canonical_empty
      | some own => exact hd own rfl
    have hmerge := fun {joint : Distribution} =>
      hbase.addEntries?_iff (hother other rfl).ascending hf (r := joint)
    unfold combine? combine
    rw [Option.map_eq_some_iff]
    constructor
    · rintro ⟨joint, hjoint, rfl⟩
      obtain ⟨rfl, hfits⟩ := hmerge.mp hjoint
      exact ⟨rfl, hfits⟩
    · rintro ⟨rfl, hfits⟩
      exact ⟨_, hmerge.mpr ⟨rfl, hfits⟩, rfl⟩

end Distribution

structure EquivalenceClass.Fits (e : EquivalenceClass) : Prop where
  count : e.count < 2 ^ 64
  total : e.total < 2 ^ 64
  occurrences : ∀ v, Distribution.occurrences e.distribution v < 2 ^ 64

theorem EquivalenceClass.Fits.absorb?_iff {e r : EquivalenceClass} (hf : e.Fits)
    (he : ∀ d ∈ e.distribution, d.Canonical) {c : Contribution}
    (hc : ∀ d ∈ c.distribution, d.Canonical) (tracks : Bool) :
    e.absorb? tracks c = some r ↔ r = e.absorb tracks c ∧ r.Fits := by
  have hdistribution : ∀ {x}, (if tracks then Distribution.combine? e.distribution c.distribution
      else some e.distribution) = some x ↔ x = (if tracks then
        Distribution.combine e.distribution c.distribution else e.distribution) ∧
          ∀ v, Distribution.occurrences x v < 2 ^ 64 := by
    intro x
    cases tracks with
    | true => exact Distribution.combine?_iff he hc hf.occurrences
    | false =>
      constructor
      · rintro ⟨⟩
        exact ⟨rfl, hf.occurrences⟩
      · rintro ⟨rfl, -⟩
        rfl
  unfold absorb? absorb
  constructor
  · intro h
    obtain ⟨_, hword, h⟩ := Option.bind_eq_some_iff.mp h
    obtain ⟨rfl, hcount⟩ := word?_eq_some.mp hword
    obtain ⟨_, hword, h⟩ := Option.bind_eq_some_iff.mp h
    obtain ⟨rfl, htotal⟩ := word?_eq_some.mp hword
    obtain ⟨_, hjoint, h⟩ := Option.bind_eq_some_iff.mp h
    obtain ⟨rfl, hown⟩ := hdistribution.mp hjoint
    cases h
    exact ⟨rfl, hcount, htotal, hown⟩
  · rintro ⟨rfl, hcount, htotal, hown⟩
    rw [word?_eq hcount, Option.bind_eq_bind, Option.bind_some, word?_eq htotal,
      Option.bind_eq_bind, Option.bind_some, hdistribution.mpr ⟨rfl, hown⟩]
    rfl

theorem EquivalenceClass.fits_unfilled (key : List Nat) (representative : Nat) :
    (unfilled key representative).Fits :=
  ⟨Nat.two_pow_pos 64, Nat.two_pow_pos 64, fun _ => Nat.two_pow_pos 64⟩

namespace ClassTable
variable {hash : List Nat → UInt64} {t u : ClassTable}

/-! ## Buckets -/

section
open Binary64

theorem finite_loadFactor : Binary64.Finite 0.75 ∧ 0 < magnitude 0.75 :=
  ⟨⟨by decide, by decide⟩, by decide⟩

theorem requested_mono {m n : Nat} (h : m ≤ n) (hn : n ≤ 2 ^ 64) :
    (ofCount m / 0.75).toUInt64.toNat ≤ (ofCount n / 0.75).toUInt64.toNat := by
  obtain ⟨hfinite, hpos⟩ := finite_loadFactor
  have hgreatest : magnitude (ofCount (2 ^ 64) / 0.75) < infiniteMagnitude := by decide
  have hlow := (below_ofCount h).div hfinite hpos
  have hhigh := (below_ofCount hn).div hfinite hpos
  have hright : Binary64.Finite (ofCount n / 0.75) :=
    ⟨hhigh.left, hhigh.magnitude_le.trans_lt hgreatest⟩
  have hleft : Binary64.Finite (ofCount m / 0.75) :=
    ⟨hlow.left, hlow.magnitude_le.trans_lt hright.finite⟩
  rw [hleft.toNat_toUInt64, hright.toNat_toUInt64]
  exact min_le_min_right _ (Nat.div_le_div_right (units_mono hlow.magnitude_le))

theorem isSome_ofCapacity? {capacity : Nat} (h : capacity < 2 ^ 64) (tracks : Bool) :
    (ofCapacity? capacity tracks).isSome ↔ capacity ≤ 3 * 2 ^ 56 + 16 := by
  have hfits : (ofCount (3 * 2 ^ 56 + 16) / 0.75).toUInt64.toNat = 2 ^ 58 := by decide +kernel
  have hexceeds : 2 ^ 58 < (ofCount (3 * 2 ^ 56 + 17) / 0.75).toUInt64.toNat := by
    decide +kernel
  have hbuckets : initialBuckets capacity < 2 ^ 59 ↔ capacity ≤ 3 * 2 ^ 56 + 16 := by
    rw [initialBuckets, nextPower_lt, max_le_iff]
    constructor
    · rintro ⟨-, hle⟩
      by_contra hgt
      exact absurd (hexceeds.trans_le (requested_mono (by omega) h.le)) (not_lt.mpr hle)
    · intro hle
      exact ⟨by decide, hfits ▸ requested_mono hle (by decide)⟩
  unfold ofCapacity?
  split_ifs with hlt
  · exact iff_of_true rfl (hbuckets.mp hlt)
  · exact iff_of_false nofun fun hle => hlt (hbuckets.mpr hle)

theorem ofCapacity?_eq {capacity : Nat} (h : capacity ≤ 3 * 2 ^ 56 + 16) (tracks : Bool) :
    ofCapacity? capacity tracks = some (ofCapacity capacity tracks) := by
  have hsome := (isSome_ofCapacity? (by omega) tracks).mpr h
  unfold ofCapacity? at hsome ⊢
  split_ifs at hsome ⊢ with hbuckets
  · rfl
  · cases hsome

/-- Buckets are doubled long before there are too many of them. -/
theorem size_mul_two_lt (hbuckets : t.buckets.size < 2 ^ 59) (hslots : t.slots.size < 2 ^ 55)
    (hcrowded : t.crowded = true) : t.buckets.size * 2 < 2 ^ 59 := by
  by_contra hmany
  have hfew : ofCount (t.slots.size + 1) ≤ ofCount (2 ^ 55) := (below_ofCount hslots).le
  have hroom : ofCount (2 ^ 55) ≤ ofCount (2 ^ 58) * 0.75 := by decide
  have hgrown : ofCount (2 ^ 58) * 0.75 ≤ ofCount t.buckets.size * 0.75 := by
    have hleast := (finite_ofCount (n := 2 ^ 58) (by decide)).finite
    have hown := (finite_ofCount (n := t.buckets.size) (by omega)).finite
    have hle := (le_iff_exact hleast hown).mp
      (below_ofCount (by omega : 2 ^ 58 ≤ t.buckets.size)).le
    have hpos : (0 : ℚ) ≤ exact 0.75 := (exact_pos.mpr (by decide)).le
    exact (rounds_mul hleast finite_loadFactor.1.finite).le
      (rounds_mul hown finite_loadFactor.1.finite) (mul_le_mul_of_nonneg_right hle hpos)
  have hlt := lt_iff.mp (of_decide_eq_true hcrowded)
  have hfew := le_iff.mp hfew
  have hroom := le_iff.mp hroom
  have hgrown := le_iff.mp hgrown
  omega

end

/-! ## Additions -/

/-- There are enough buckets for a key, or twice as many can be allocated. -/
def Roomy (t : ClassTable) (hash : List Nat → UInt64) (key : List Nat) : Prop :=
  t.slotOf? hash key = none → t.crowded = true → t.buckets.size * 2 < 2 ^ 59

theorem findOrInsert?_iff {key : List Nat} {representative : Nat} {p : Nat × ClassTable} :
    t.findOrInsert? hash key representative = some p ↔
      p = t.findOrInsert hash key representative ∧ t.Roomy hash key := by
  have hrehash : ∀ {grown}, (if t.crowded then t.rehash? else some t) = some grown ↔
      grown = (if t.crowded then t.rehash else t) ∧
        (t.crowded = true → t.buckets.size * 2 < 2 ^ 59) := by
    intro grown
    unfold rehash?
    split_ifs with hcrowded hsize
    · simp [hcrowded, hsize, eq_comm]
    · simp [hcrowded, hsize]
    · simp [hcrowded, eq_comm]
  unfold findOrInsert? findOrInsert Roomy
  cases hslot : t.slotOf? hash key with
  | some i =>
    constructor
    · rintro ⟨⟩
      exact ⟨rfl, nofun⟩
    · rintro ⟨rfl, -⟩
      rfl
  | none =>
    constructor
    · intro h
      obtain ⟨grown, hgrown, h⟩ := Option.bind_eq_some_iff.mp h
      obtain ⟨rfl, hroom⟩ := hrehash.mp hgrown
      cases h
      exact ⟨rfl, fun _ => hroom⟩
    · rintro ⟨rfl, hroom⟩
      exact Option.bind_eq_some_iff.mpr ⟨_, hrehash.mpr ⟨rfl, hroom rfl⟩, rfl⟩

theorem modify_congr {i : Nat} {f g : EquivalenceClass → EquivalenceClass}
    (h : ∀ s, t.slots[i]? = some s → f s.entry = g s.entry) : t.modify i f = t.modify i g := by
  have hslots : (t.slots.modify i fun s => { s with entry := f s.entry }) =
      t.slots.modify i fun s => { s with entry := g s.entry } := by
    apply Array.ext_getElem?
    intro k
    rw [Array.getElem?_modify, Array.getElem?_modify]
    split_ifs with hk
    · subst hk
      cases hs : t.slots[i]? with
      | none => rfl
      | some s => simp [h s hs]
    · rfl
  unfold modify
  simp only [hslots]

theorem forall_mem_modify {α : Type} {P : α → Prop} {f : α → α} {xs : List α} {i : Nat} {x : α}
    (hx : xs[i]? = some x) (h : ∀ y ∈ xs, P y) : (∀ y ∈ xs.modify i f, P y) ↔ P (f x) := by
  induction xs generalizing i with
  | nil => simp at hx
  | cons first rest ih =>
    obtain ⟨hfirst, hrest⟩ := List.forall_mem_cons.mp h
    cases i with
    | zero =>
      cases hx
      rw [List.modify_zero_cons, List.forall_mem_cons]
      exact and_iff_left hrest
    | succ i =>
      rw [List.modify_succ_cons, List.forall_mem_cons, ih hx hrest]
      exact and_iff_right hfirst

def Fits (t : ClassTable) : Prop := ∀ e ∈ t.entries, e.Fits

/-- An addition fails for want of room for a key, or because a counter overflows. -/
theorem Linked.add?_iff (h : t.Linked hash) (hfits : t.Fits)
    (ht : ∀ e ∈ t.entries, ∀ d ∈ e.distribution, d.Canonical) {c : Contribution}
    (hc : ∀ d ∈ c.distribution, d.Canonical) :
    t.add? hash c = some u ↔ u = t.add hash c ∧ t.Roomy hash c.key ∧ u.Fits := by
  obtain ⟨-, -, hcases⟩ := h.findOrInsert c.key c.representative
  rw [ClassTable.add]
  obtain ⟨⟨i, found⟩, hfound⟩ : ∃ p, p = t.findOrInsert hash c.key c.representative := ⟨_, rfl⟩
  rw [← hfound] at hcases ⊢
  dsimp only at hcases ⊢
  obtain ⟨s, hs, hall⟩ : ∃ s, found.slots[i]? = some s ∧ ∀ e ∈ found.entries,
      e.Fits ∧ ∀ d ∈ e.distribution, d.Canonical := by
    have hold : ∀ e ∈ t.entries, e.Fits ∧ ∀ d ∈ e.distribution, d.Canonical :=
      fun e he => ⟨hfits e he, ht e he⟩
    rcases hcases with ⟨e, he, -, rfl⟩ | ⟨-, rfl, hentries⟩
    · rw [getElem?_entries] at he
      obtain ⟨s, hs, -⟩ := Option.map_eq_some_iff.mp he
      exact ⟨s, hs, hold⟩
    · have hlast := found.getElem?_entries t.entries.length
      rw [hentries, List.getElem?_concat_length] at hlast
      obtain ⟨s, hs, -⟩ := Option.map_eq_some_iff.mp hlast.symm
      refine ⟨s, hs, fun e he => ?_⟩
      rw [hentries, List.mem_append, List.mem_singleton] at he
      rcases he with he | rfl
      · exact hold e he
      · exact ⟨EquivalenceClass.fits_unfilled _ _, fun d hd => by cases hd⟩
  have hentry : found.entries[i]? = some s.entry := by rw [getElem?_entries, hs]; rfl
  obtain ⟨hown, hcanonical⟩ := hall s.entry (List.mem_of_getElem? hentry)
  have hmodify : (found.modify i fun _ => s.entry.absorb found.tracks c) =
      found.modify i (·.absorb found.tracks c) := modify_congr fun own hown => by
    cases hs.symm.trans hown
    rfl
  have hresult : (found.modify i (·.absorb found.tracks c)).Fits ↔
      (s.entry.absorb found.tracks c).Fits := by
    unfold Fits
    rw [entries_modify]
    exact forall_mem_modify hentry fun e he => (hall e he).1
  have habsorb := fun {r} => hown.absorb?_iff hcanonical hc found.tracks (r := r)
  constructor
  · intro hadd
    obtain ⟨p, hp, hadd⟩ := Option.bind_eq_some_iff.mp hadd
    obtain ⟨rfl, hroom⟩ := findOrInsert?_iff.mp hp
    rw [← hfound] at hadd
    obtain ⟨own, hslot, hadd⟩ := Option.bind_eq_some_iff.mp hadd
    cases hs.symm.trans hslot
    obtain ⟨e, he, hadd⟩ := Option.bind_eq_some_iff.mp hadd
    obtain ⟨rfl, hfits⟩ := habsorb.mp he
    cases hadd
    rw [hmodify]
    exact ⟨rfl, hroom, hresult.mpr hfits⟩
  · rintro ⟨rfl, hroom, hfits⟩
    refine Option.bind_eq_some_iff.mpr ⟨_, findOrInsert?_iff.mpr ⟨hfound, hroom⟩, ?_⟩
    refine Option.bind_eq_some_iff.mpr ⟨s, hs, ?_⟩
    refine Option.bind_eq_some_iff.mpr ⟨_, habsorb.mpr ⟨rfl, hresult.mp hfits⟩, ?_⟩
    rw [hmodify]
    rfl

end ClassTable
end Recoding
