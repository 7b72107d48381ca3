import Recoding.Proofs.Grouping.Partition
import Recoding.Proofs.Grouping.Snapshots

/-!
# What words keep

Snapshots and encoded distributions consist of words of 32 bits, in which numbers are kept
modulo `2 ^ 32`. So they give back what they were made of exactly if its numbers fit.
Distributions are interned by their encodings; one that does not fit may be mistaken for
another one.
-/

namespace Recoding

namespace Distribution

theorem decodeOnto_encoded (d : Distribution) (entries : List (Nat × Nat)) :
    d.decodeOnto (entries.flatMap fun (value, frequency) => [value, frequency % 2 ^ 32]) =
      (entries.map fun (value, frequency) => (value, frequency % 2 ^ 32)).foldl
        (fun d (value, frequency) => d.add value frequency) d := by
  induction entries generalizing d with
  | nil => rfl
  | cons entry entries ih => exact ih _

theorem lookup_map_mod (entries : List (Nat × Nat)) (v : Nat) :
    ((entries.map fun (value, frequency) => (value, frequency % 2 ^ 32)).lookup v).getD 0 =
      (entries.lookup v).getD 0 % 2 ^ 32 := by
  induction entries with
  | nil => rfl
  | cons entry entries ih =>
    obtain ⟨w, n⟩ := entry
    rw [List.map_cons, lookup_cons_getD, lookup_cons_getD, ih]
    split_ifs <;> rfl

/-- An encoding keeps every frequency modulo `2 ^ 32`. -/
theorem Canonical.decode_encode {d : Distribution} (hd : d.Canonical) :
    (decode d.encode).Canonical ∧
      ∀ v, (decode d.encode).frequency v = d.frequency v % 2 ^ 32 := by
  have hascending : (d.entries.map fun (value, frequency) =>
      (value, frequency % 2 ^ 32)).Pairwise (·.1 < ·.1) := by
    rw [List.pairwise_map]
    exact hd.ascending
  obtain ⟨hcanonical, hfrequency⟩ := canonical_empty.addEntries hascending
  rw [decode, encode, decodeOnto_encoded]
  refine ⟨hcanonical, fun v => ?_⟩
  rw [hfrequency, frequency_empty, Nat.zero_add, lookup_map_mod]
  rfl

theorem Canonical.narrow_iff {d : Distribution} (hd : d.Canonical) :
    d.Narrow ↔ ∀ v, d.frequency v < 2 ^ 32 := by
  constructor
  · intro hnarrow v
    by_cases hv : 0 < d.frequency v
    · obtain ⟨entry, hentry, rfl⟩ := List.mem_map.mp ((frequency_pos hd).mp hv)
      rw [hd.frequency_eq hentry]
      exact hnarrow entry hentry
    · omega
  · intro h entry hentry
    rw [← hd.frequency_eq hentry]
    exact h entry.1

/-- Decoding inverts encoding exactly if all frequencies fit into words. -/
theorem Canonical.decode_encode_iff {d : Distribution} (hd : d.Canonical) :
    decode d.encode = d ↔ d.Narrow := by
  obtain ⟨hcanonical, hfrequency⟩ := hd.decode_encode
  rw [hd.narrow_iff]
  constructor
  · intro h v
    rw [← h, hfrequency]
    exact Nat.mod_lt _ (Nat.two_pow_pos 32)
  · intro h
    apply hcanonical.ext hd
    intro v
    rw [hfrequency, Nat.mod_eq_of_lt (h v)]

end Distribution

namespace Dictionary

def internAll (d : Dictionary) (xs : List Distribution) : Dictionary :=
  xs.foldl (fun d x => (d.intern x).2) d

/-- No two distributions of a dictionary have one encoding. -/
def Distinct (d : Dictionary) : Prop := (d.distributions.map (·.encode)).Nodup

theorem distinct_empty : empty.Distinct := List.nodup_nil

theorem Distinct.intern {d : Dictionary} (hd : d.Distinct) (x : Distribution) :
    (d.intern x).2.Distinct := by
  unfold Dictionary.intern
  split
  · exact hd
  · rename_i hnone
    rw [Distinct, List.map_append, List.map_singleton]
    have hnew : x.encode ∉ d.distributions.map (·.encode) := by
      intro hmem
      obtain ⟨y, hy, heq⟩ := List.mem_map.mp hmem
      exact absurd heq (by simpa using List.findIdx?_eq_none_iff.mp hnone y hy)
    simpa using List.Nodup.concat hnew hd

theorem Distinct.internAll {d : Dictionary} (hd : d.Distinct) (xs : List Distribution) :
    (d.internAll xs).Distinct := by
  induction xs generalizing d with
  | nil => exact hd
  | cons x xs ih => exact ih (hd.intern x)

theorem extends_internAll (d : Dictionary) (xs : List Distribution) :
    d.Extends (d.internAll xs) := by
  induction xs generalizing d with
  | nil => exact Extends.refl d
  | cons x xs ih => exact (extends_intern d x).trans (ih _)

theorem Sound.intern {d : Dictionary} (hd : d.Sound) {x : Distribution} (hx : x.Narrow) :
    (d.intern x).2.Sound := by
  unfold Dictionary.intern
  split
  · exact hd
  · intro y hy
    rcases List.mem_append.mp hy with hy | hy
    · exact hd y hy
    · rwa [List.mem_singleton.mp hy]

theorem Sound.internAll {d : Dictionary} (hd : d.Sound) {xs : List Distribution}
    (hxs : ∀ x ∈ xs, x.Narrow) : (d.internAll xs).Sound := by
  induction xs generalizing d with
  | nil => exact hd
  | cons x xs ih =>
    exact ih (hd.intern (hxs x List.mem_cons_self)) fun y hy => hxs y (List.mem_cons_of_mem _ hy)

theorem exists_place (d : Dictionary) (x : Distribution) :
    ∃ place y, (d.intern x).1 = place % 2 ^ 32 ∧
      (d.intern x).2.distributions[place]? = some y ∧ y.encode = x.encode := by
  unfold intern
  split
  · rename_i place hfind
    obtain ⟨hlt, hencode, -⟩ := List.findIdx?_eq_some_iff_getElem.mp hfind
    exact ⟨place, _, rfl, List.getElem?_eq_getElem hlt, of_decide_eq_true hencode⟩
  · exact ⟨d.size, x, rfl, List.getElem?_concat_length, rfl⟩

theorem Distinct.eq_of_encode {d : Dictionary} (hd : d.Distinct) {p q : Nat}
    {x y : Distribution} (hx : d.distributions[p]? = some x) (hy : d.distributions[q]? = some y)
    (h : x.encode = y.encode) : p = q := by
  have hp : p < (d.distributions.map (·.encode)).length := by
    simpa using (List.getElem?_eq_some_iff.mp hx).1
  apply (List.getElem?_inj hp hd).mp
  rw [List.getElem?_map, List.getElem?_map, hx, hy, Option.map_some, Option.map_some, h]

/-- As long as the numbers last, distributions share one exactly if they share their
encodings. -/
theorem intern_eq_iff {d : Dictionary} (hd : d.Distinct) (x y : Distribution)
    (between : List Distribution)
    (hsize : (((d.intern x).2.internAll between).intern y).2.size ≤ 2 ^ 32) :
    (d.intern x).1 = (((d.intern x).2.internAll between).intern y).1 ↔
      x.encode = y.encode := by
  obtain ⟨p, own, hp, hown, hx⟩ := d.exists_place x
  obtain ⟨q, other, hq, hother, hy⟩ := ((d.intern x).2.internAll between).exists_place y
  have hlater := ((extends_internAll (d.intern x).2 between).trans
    (extends_intern _ y)).find? hown
  have hdistinct := ((hd.intern x).internAll between).intern y
  have hplt : p < 2 ^ 32 := lt_of_lt_of_le (List.getElem?_eq_some_iff.mp hlater).1 hsize
  have hqlt : q < 2 ^ 32 := lt_of_lt_of_le (List.getElem?_eq_some_iff.mp hother).1 hsize
  rw [hp, hq, Nat.mod_eq_of_lt hplt, Nat.mod_eq_of_lt hqlt]
  constructor
  · rintro rfl
    rw [← hx, ← hy, Option.some.inj (hlater.symm.trans hother)]
  · intro h
    exact hdistinct.eq_of_encode hlater hother (hx.trans (h.trans hy.symm))

end Dictionary

namespace Snapshot

theorem sound_wordsOfAll (tracks : Bool) {classes : List EquivalenceClass}
    (hc : ∀ e ∈ classes, ∀ x ∈ e.distribution, x.Narrow) {d : Dictionary} (hd : d.Sound) :
    (wordsOfAll tracks classes d).2.Sound := by
  induction classes generalizing d with
  | nil => exact hd
  | cons e rest ih =>
    have hnext : (wordsOf tracks e d).2.Sound := by
      unfold wordsOf
      cases tracks with
      | false => exact hd
      | true =>
        cases hx : e.distribution with
        | none => exact hd
        | some x => exact hd.intern (hc e List.mem_cons_self x hx)
    exact ih (fun other hother => hc other (List.mem_cons_of_mem _ hother)) hnext

/-- The record of a class is made with a dictionary that the final one extends. -/
theorem exists_dictionary (tracks : Bool) {classes : List EquivalenceClass} (d : Dictionary)
    {i : Nat} {e : EquivalenceClass} (he : classes[i]? = some e) : ∃ between : Dictionary,
      (recordsOf tracks classes d)[i]? = some (recordOf tracks e between) ∧
      (wordsOf tracks e between).2.Extends (wordsOfAll tracks classes d).2 := by
  induction classes generalizing d i with
  | nil => cases he
  | cons first rest ih =>
    cases i with
    | zero =>
      cases he
      exact ⟨d, rfl, extends_wordsOfAll tracks rest _⟩
    | succ i => exact ih _ he

end Snapshot

namespace SnapshotRecord
variable {dictionary : Dictionary} {e : EquivalenceClass} {r : SnapshotRecord}

/-- A record has the numbers of a class modulo `2 ^ 32`, and a distribution with the encoding
of its distribution. -/
structure Approximates (dictionary : Dictionary) (e : EquivalenceClass) (r : SnapshotRecord) :
    Prop where
  representative : r.representative = e.representative % 2 ^ 32
  count : r.count = e.count % 2 ^ 32
  total : r.total = e.total % 2 ^ 32
  absent : r.distribution = none ↔ e.distribution = none
  encoding : ∀ x ∈ e.distribution, ∃ y, r.distribution.bind dictionary.find? = some y ∧
    y.encode = x.encode

/-- A record restores its class exactly if the numbers fit into words and the distribution has
not been mistaken for another one. -/
theorem Approximates.restores_iff (h : r.Approximates dictionary e) : r.Restores dictionary e ↔
    e.representative < 2 ^ 32 ∧ e.count < 2 ^ 32 ∧ e.total < 2 ^ 32 ∧
      ∀ x ∈ e.distribution, r.distribution.bind dictionary.find? = some x := by
  have hlt : ∀ n : Nat, n % 2 ^ 32 < 2 ^ 32 := fun n => Nat.mod_lt n (Nat.two_pow_pos 32)
  constructor
  · intro hr
    refine ⟨?_, ?_, ?_, fun x hx => ?_⟩
    · rw [← hr.representative, h.representative]
      exact hlt _
    · rw [← hr.count, h.count]
      exact hlt _
    · rw [← hr.total, h.total]
      exact hlt _
    · exact hr.find?_distribution.trans hx
  · rintro ⟨hrepresentative, hcount, htotal, hdistribution⟩
    refine ⟨?_, ?_, ?_, ?_⟩
    · rw [h.representative, Nat.mod_eq_of_lt hrepresentative]
    · rw [h.count, Nat.mod_eq_of_lt hcount]
    · rw [h.total, Nat.mod_eq_of_lt htotal]
    · cases hx : e.distribution with
      | none => rw [h.absent.mpr hx, Option.map_none, Option.map_none]
      | some x =>
        obtain ⟨id, hid, hfind⟩ := Option.bind_eq_some_iff.mp (hdistribution x hx)
        rw [hid, Option.map_some, Option.map_some, hfind]

/-- Among distributions that fit into words none is mistaken for another one. -/
theorem Approximates.restores_iff_of_narrow (h : r.Approximates dictionary e)
    (hsound : dictionary.Sound) (hnarrow : ∀ x ∈ e.distribution, x.Narrow) :
    r.Restores dictionary e ↔
      e.representative < 2 ^ 32 ∧ e.count < 2 ^ 32 ∧ e.total < 2 ^ 32 := by
  have hdistribution : ∀ x ∈ e.distribution, r.distribution.bind dictionary.find? = some x := by
    intro x hx
    obtain ⟨y, hy, hencode⟩ := h.encoding x hx
    obtain ⟨id, -, hfind⟩ := Option.bind_eq_some_iff.mp hy
    have hmem : y ∈ dictionary.distributions := List.mem_of_getElem? hfind
    rw [hy, (hsound y hmem).encode_injective (hnarrow x hx) hencode]
  rw [h.restores_iff]
  tauto

theorem approximates_recordOf {tracks : Bool} (htracks : tracks = false → e.distribution = none)
    {between : Dictionary} (hextends : (Snapshot.wordsOf tracks e between).2.Extends dictionary)
    (hsize : dictionary.size < 2 ^ 32) :
    (Snapshot.recordOf tracks e between).Approximates dictionary e := by
  cases hx : e.distribution with
  | none =>
    refine ⟨rfl, rfl, rfl, ?_, ?_⟩
    · simp [Snapshot.recordOf, hx]
    · simp [hx]
  | some x =>
    cases tracks with
    | false => exact absurd (htracks rfl) (by simp [hx])
    | true =>
      obtain ⟨place, y, hplace, hy, hencode⟩ := between.exists_place x
      have hwords : (Snapshot.wordsOf true e between).2 = (between.intern x).2 := by
        simp [Snapshot.wordsOf, hx]
      rw [hwords] at hextends
      have hfind : dictionary.find? place = some y := hextends.find? hy
      have hlt : place < dictionary.size := (List.getElem?_eq_some_iff.mp hfind).1
      have hid : (between.intern x).1 = place := by
        rw [hplace, Nat.mod_eq_of_lt (hlt.trans hsize)]
      have hpresent : place ≠ Snapshot.noDistribution := by
        unfold Snapshot.noDistribution
        omega
      have hrecord : (Snapshot.recordOf true e between).distribution = some place := by
        simp [Snapshot.recordOf, hx, hid, hpresent]
      refine ⟨rfl, rfl, rfl, ?_, ?_⟩
      · simp [hrecord, hx]
      · intro other hother
        obtain rfl : x = other := Option.some.inj (hx.symm.trans hother)
        exact ⟨y, by rw [hrecord, Option.bind_some, hfind], hencode⟩

end SnapshotRecord

namespace Snapshot

/-- Words keep numbers modulo `2 ^ 32`. An encoded distribution is given back exactly if its
frequencies fit; numbers of interned distributions are shared by equal encodings only; and the
record of a class restores it exactly if its own numbers fit and its distribution has not been
mistaken for one with the same encoding, which happens to distributions that do not fit only. -/
theorem stored_modulo {d : Distribution} (hd : d.Canonical)
    (before between : List Distribution) (x y : Distribution) {hash : List Nat → UInt64}
    {t : ClassTable} {cs : List Contribution} (hbuilt : t.Built hash cs) (levels : List Nat) :
    let first := Dictionary.empty.internAll before
    let second := (first.intern x).2.internAll between
    let stored := ofGrouping levels t.grouping first
    ((∀ v, (Distribution.decode d.encode).frequency v = d.frequency v % 2 ^ 32) ∧
      (Distribution.decode d.encode = d ↔ d.Narrow)) ∧
    ((second.intern y).2.size ≤ 2 ^ 32 →
      ((first.intern x).1 = (second.intern y).1 ↔ x.encode = y.encode) ∧
      (x.Narrow → y.Narrow → ((first.intern x).1 = (second.intern y).1 ↔ x = y))) ∧
    (stored.2.size < 2 ^ 32 →
      stored.1.size = t.size ∧ ∀ i e, t.classes[i]? = some e →
        ∃ r, stored.1.record? (i * stored.1.stride) = some r ∧ r.Approximates stored.2 e ∧
          (r.Restores stored.2 e ↔
            e.representative < 2 ^ 32 ∧ e.count < 2 ^ 32 ∧ e.total < 2 ^ 32 ∧
              ∀ x ∈ e.distribution, r.distribution.bind stored.2.find? = some x) ∧
          ((∀ x ∈ before, x.Narrow) →
            (∀ e ∈ t.classes, ∀ x ∈ e.distribution, x.Narrow) →
            (r.Restores stored.2 e ↔
              e.representative < 2 ^ 32 ∧ e.count < 2 ^ 32 ∧ e.total < 2 ^ 32))) := by
  intro first second stored
  refine ⟨⟨hd.decode_encode.2, hd.decode_encode_iff⟩, fun hsize => ?_, fun hsize => ?_⟩
  · have hshared := Dictionary.intern_eq_iff
      (Dictionary.distinct_empty.internAll before) x y between hsize
    refine ⟨hshared, fun hx hy => hshared.trans ⟨hx.encode_injective hy, fun h => ?_⟩⟩
    rw [h]
  · have hholding := hbuilt.holding
    refine ⟨?_, fun i e he => ?_⟩
    · rw [size_ofGrouping, hholding.linked.size_eq]
    · obtain ⟨known, hrecord, hextends⟩ := exists_dictionary t.tracks first he
      have hread := record?_ofGrouping levels t.grouping first
        (List.getElem?_eq_some_iff.mp hrecord).1
      have huntracked : t.tracks = false → e.distribution = none := by
        intro hfalse
        have hsums := hholding.sumsUp (List.mem_of_getElem? he)
        simpa [hfalse] using hsums.distributed
      have happroximates := SnapshotRecord.approximates_recordOf huntracked hextends hsize
      refine ⟨recordOf t.tracks e known, ?_, happroximates, happroximates.restores_iff, ?_⟩
      · rw [hread]
        exact congrArg some (List.getElem?_eq_some_iff.mp hrecord).2
      · intro hbefore hclasses
        exact happroximates.restores_iff_of_narrow
          (sound_wordsOfAll _ hclasses (Dictionary.sound_empty.internAll hbefore))
          (hclasses e (List.mem_of_getElem? he))

/-- A dictionary that knows a distribution with the same encoding already, and a class with
more records than fit into a word. -/
theorem stored_modulo_sample :
    let hash : List Nat → UInt64 := fun _ => 0
    let wide : Distribution := ⟨[(0, 2 ^ 32 + 1)]⟩
    let small : Distribution := ⟨[(0, 1)]⟩
    let t := (ClassTable.ofCapacity 0 true).add hash ⟨[7], 3, 1, 2 ^ 32, some small⟩
    let stored := ofGrouping [0] t.grouping (Dictionary.empty.internAll [wide])
    Distribution.decode wide.encode ≠ wide ∧
      (Dictionary.empty.intern wide).1 = ((Dictionary.empty.intern wide).2.intern small).1 ∧
      ∃ r, stored.1.record? 0 = some r ∧ r.representative = 3 ∧ r.total = 0 ∧
        r.distribution.bind stored.2.find? = some wide := by
  intro hash wide small t stored
  have hwide : wide.Canonical := ⟨by decide, by decide⟩
  have hsmall : small.Canonical := ⟨by decide, by decide⟩
  have hbuilt : t.Built hash [⟨[7], 3, 1, 2 ^ 32, some small⟩] :=
    .whole (.new 0 true) (by rintro d ⟨⟩; exact hsmall)
  have hgrouping : t.grouping = (Grouping.empty true).add ⟨[7], 3, 1, 2 ^ 32, some small⟩ := by
    rw [((ClassTable.linked_ofCapacity 0 true).add _).2, ClassTable.grouping_ofCapacity]
  have hclass : t.classes[0]? = some ⟨[7], 3, 1, 2 ^ 32, some small, false⟩ := by
    change t.grouping.classes[0]? = _
    rw [hgrouping]
    decide
  have hdictionary : stored.2 = ⟨[wide]⟩ := by
    simp only [stored, hgrouping]
    decide
  obtain ⟨⟨-, hdecode⟩, hnumbers, -⟩ := stored_modulo hwide [] [] wide small hbuilt [0]
  obtain ⟨-, -, hrecords⟩ := stored_modulo hwide [wide] [] wide small hbuilt [0]
  obtain ⟨-, hclasses⟩ := hrecords (by rw [hdictionary]; decide : stored.2.size < 2 ^ 32)
  obtain ⟨r, hread, happroximates, -, -⟩ := hclasses 0 _ hclass
  obtain ⟨y, hy, hencode⟩ := happroximates.encoding small rfl
  have hmem : y ∈ stored.2.distributions := by
    obtain ⟨id, -, hid⟩ := Option.bind_eq_some_iff.mp hy
    exact List.mem_of_getElem? hid
  rw [hdictionary, List.mem_singleton] at hmem
  refine ⟨fun h => ?_, (hnumbers (by decide)).1.mpr (by decide), r, ?_,
    happroximates.representative, happroximates.total.trans (by decide), hmem ▸ hy⟩
  · exact absurd (hdecode.mp h) (by unfold Distribution.Narrow; decide)
  · simpa using hread

/-- Frequencies and counters beyond a word are lost: a distribution is not decoded from its
own encoding, two distributions share a number, and a class is read back without records. -/
theorem wide_numbers_lost :
    let wide := Distribution.empty.add 0 (2 ^ 32)
    let known := Distribution.empty.add 0 1
    let other := Distribution.empty.add 0 (2 ^ 32 + 1)
    let g := Grouping.ofContributions false [⟨[7], 0, 0, 2 ^ 32, none⟩]
    Distribution.decode wide.encode ≠ wide ∧ known ≠ other ∧
      (Dictionary.empty.intern known).1 = ((Dictionary.empty.intern known).2.intern other).1 ∧
      g.classes.map (·.total) = [2 ^ 32] ∧
      ((ofGrouping [0] g Dictionary.empty).1.record? 0).map (·.total) = some 0 := by
  decide

end Snapshot
end Recoding
