import Recoding.Grouping.Store
import Recoding.Proofs.Check.Faithful
import Recoding.Proofs.Grouping.Words

/-!
# Stores and histories

A store answers like the history whose snapshots are listed in the order of its queue. So what
holds of a history after any operations, which have one list to change, holds of a store, which
has a map, a queue and counters to keep in step.
-/

namespace Recoding

/-! ## Maps -/

theorem lookup_eq_some_iff {α : Type} {entries : List (Nat × α)}
    (hdistinct : (entries.map Prod.fst).Nodup) {id : Nat} {a : α} :
    entries.lookup id = some a ↔ (id, a) ∈ entries := by
  induction entries with
  | nil => simp
  | cons first rest ih =>
    obtain ⟨own, b⟩ := first
    obtain ⟨hfirst, hrest⟩ := List.nodup_cons.mp hdistinct
    by_cases h : id = own
    · subst h
      have hnot : (id, a) ∉ rest := fun hmem => hfirst (List.mem_map.mpr ⟨_, hmem, rfl⟩)
      simp [hnot, eq_comm]
    · have hb : (id == own) = false := by simpa using h
      simp [List.lookup_cons, hb, ih hrest, h]

theorem lookup_perm {α : Type} {entries others : List (Nat × α)} (h : entries.Perm others)
    (hdistinct : (entries.map Prod.fst).Nodup) (id : Nat) :
    entries.lookup id = others.lookup id := by
  have hothers : (others.map Prod.fst).Nodup := (h.map _).nodup_iff.mp hdistinct
  apply Option.ext
  intro a
  rw [lookup_eq_some_iff hdistinct, lookup_eq_some_iff hothers, h.mem_iff]

namespace History

/-- One snapshot is at most as expensive as another: it has fewer classes, or equally many
and no greater id. -/
def NoDearer (a b : Nat × Snapshot) : Prop :=
  a.2.size < b.2.size ∨ a.2.size = b.2.size ∧ a.1 ≤ b.1

theorem noDearer_refl (a : Nat × Snapshot) : NoDearer a a := Or.inr ⟨rfl, le_rfl⟩

theorem NoDearer.trans {a b c : Nat × Snapshot} (hab : NoDearer a b) (hbc : NoDearer b c) :
    NoDearer a c := by
  unfold NoDearer at *
  omega

theorem noDearer_of_cheaper {a b : Nat × Snapshot} (h : cheaper a b = true) : NoDearer a b := by
  unfold NoDearer
  simp only [cheaper, Bool.or_eq_true, Bool.and_eq_true, decide_eq_true_eq, beq_iff_eq] at h
  omega

theorem noDearer_of_not_cheaper {a b : Nat × Snapshot} (h : ¬ cheaper b a = true) :
    NoDearer a b := by
  unfold NoDearer
  simp only [cheaper, Bool.or_eq_true, Bool.and_eq_true, decide_eq_true_eq, beq_iff_eq] at h
  omega

theorem cheapest?_eq_none {entries : List (Nat × Snapshot)} :
    cheapest? entries = none ↔ entries = [] := by
  cases entries with
  | nil => simp [cheapest?]
  | cons first rest =>
    simp only [cheapest?, reduceCtorEq, iff_false]
    cases cheapest? rest with
    | none => simp
    | some other =>
      dsimp only
      split_ifs <;> simp

theorem noDearer_cheapest? {entries : List (Nat × Snapshot)} {found : Nat × Snapshot}
    (h : cheapest? entries = some found) : ∀ other ∈ entries, NoDearer found other := by
  induction entries generalizing found with
  | nil => cases h
  | cons first rest ih =>
    rw [cheapest?] at h
    intro other hother
    cases hrest : cheapest? rest with
    | none =>
      rw [hrest] at h
      cases h
      rw [cheapest?_eq_none.mp hrest, List.mem_singleton] at hother
      exact hother ▸ noDearer_refl _
    | some best =>
      rw [hrest] at h
      dsimp only at h
      have hbest := ih hrest
      split_ifs at h with hcheaper
      · cases h
        rcases List.mem_cons.mp hother with rfl | hother
        · exact noDearer_of_cheaper hcheaper
        · exact hbest other hother
      · cases h
        rcases List.mem_cons.mp hother with rfl | hother
        · exact noDearer_refl _
        · exact (noDearer_of_not_cheaper hcheaper).trans (hbest other hother)

theorem cheapest?_perm {entries others : List (Nat × Snapshot)} (h : entries.Perm others)
    (hdistinct : (entries.map Prod.fst).Nodup) : cheapest? entries = cheapest? others := by
  cases hfound : cheapest? entries with
  | none =>
    rw [cheapest?_eq_none.mp hfound] at h
    rw [List.nil_perm.mp h, cheapest?]
  | some found =>
    cases hother : cheapest? others with
    | none =>
      rw [cheapest?_eq_none.mp hother] at h
      rw [h.eq_nil, cheapest?] at hfound
      cases hfound
    | some other =>
      have hmem := cheapest?_mem hfound
      have hmem' := h.mem_iff.mpr (cheapest?_mem hother)
      have hle := noDearer_cheapest? hfound other hmem'
      have hge := noDearer_cheapest? hother found (h.mem_iff.mp hmem)
      have hid : found.1 = other.1 := by
        unfold NoDearer at hle hge
        omega
      rw [List.inj_on_of_nodup_map hdistinct hmem hmem' hid]

theorem notMem_of_find? {h : History} {id : Nat} (hfind : h.find? id = none) :
    id ∉ h.held.map Prod.fst := by
  intro hmem
  obtain ⟨entry, hentry, rfl⟩ := List.mem_map.mp hmem
  have hne := List.lookup_eq_none_iff.mp hfind entry hentry
  simp at hne

/-! ## Conditions of storing -/

theorem retains_iff {h : History} {loss : Loss} : h.retains loss = true ↔
    h.limits.retention = .all ∨
      h.limits.retention = .aboveThreshold ∧ h.limits.lossThreshold < loss.value ∨
      h.limits.retention = .belowThreshold ∧ loss.value < h.limits.lossThreshold := by
  unfold retains
  cases h.limits.retention <;> simp

theorem fits_iff {h : History} {classes : Nat} {sourceSize : Option Nat} :
    h.fits classes sourceSize = true ↔
      ¬ h.limits.datasetRatio * Binary64.ofCount h.records < Binary64.ofCount classes ∧
      ∀ source ∈ sourceSize,
        ¬ h.limits.sourceRatio * Binary64.ofCount source < Binary64.ofCount classes := by
  unfold fits
  cases sourceSize <;> simp

theorem accepts_iff {h : History} {id classes : Nat} {loss : Loss} {sourceSize : Option Nat} :
    h.accepts id classes loss sourceSize = true ↔ h.limits.maxEntries ≠ 0 ∧
      h.find? id = none ∧ h.retains loss = true ∧ h.fits classes sourceSize = true := by
  simp [accepts, and_assoc]

end History

namespace SnapshotStore

/-- A store and a history that hold the same snapshots; the queue lists them in the order of
the history. -/
structure Keeps (s : SnapshotStore) (h : History) : Prop where
  limits : s.limits = h.limits
  records : s.records = h.records
  entries : s.snapshots.entries.Perm h.held
  order : s.order = h.held.map Prod.fst
  dictionary : s.dictionary = h.dictionary
  counters : s.counters = h.counters

theorem keeps_empty (limits : HistoryLimits) (records : Nat) :
    (empty limits records).Keeps (History.empty limits records) :=
  ⟨rfl, rfl, List.Perm.refl _, rfl, rfl, rfl⟩

namespace Keeps
variable {s : SnapshotStore} {h : History}

theorem size_eq (hk : s.Keeps h) : s.size = h.size := hk.entries.length_eq

theorem distinct (hk : s.Keeps h) : (h.held.map Prod.fst).Nodup :=
  (hk.entries.map _).nodup_iff.mp s.snapshots.distinct

theorem find?_eq (hk : s.Keeps h) (id : Nat) : s.find? id = h.find? id :=
  lookup_perm hk.entries s.snapshots.distinct id

theorem accepts_eq (hk : s.Keeps h) (id classes : Nat) (loss : Loss) (sourceSize : Option Nat) :
    s.accepts id classes loss sourceSize = h.accepts id classes loss sourceSize := by
  unfold accepts History.accepts
  rw [hk.find?_eq, hk.limits, hk.records]
  rfl

theorem setRetention (hk : s.Keeps h) (retention : Retention) :
    (s.setRetention retention).Keeps (h.setRetention retention) := by
  refine ⟨?_, hk.records, hk.entries, hk.order, hk.dictionary, hk.counters⟩
  rw [SnapshotStore.setRetention, History.setRetention, hk.limits]

theorem reset (hk : s.Keeps h) : s.reset.Keeps h.reset :=
  ⟨hk.limits, hk.records, List.Perm.refl _, rfl, rfl, hk.counters⟩

theorem findClosest (hk : s.Keeps h) (levels : List Nat) :
    (s.findClosest levels).1 = (h.findClosest levels).1.map Prod.fst ∧
      (s.findClosest levels).2.Keeps (h.findClosest levels).2 := by
  have husable : (s.snapshots.entries.filter fun entry => entry.2.usableFor levels).map Prod.fst
      |>.Nodup := s.snapshots.distinct.sublist (List.filter_sublist.map _)
  have hfound : History.cheapest? (s.snapshots.entries.filter fun entry =>
      entry.2.usableFor levels) = h.closest? levels :=
    History.cheapest?_perm (hk.entries.filter _) husable
  unfold SnapshotStore.findClosest History.findClosest
  simp only [hfound]
  cases h.closest? levels with
  | none =>
    refine ⟨rfl, hk.limits, hk.records, hk.entries, hk.order, hk.dictionary, ?_⟩
    simp [hk.counters]
  | some found =>
    refine ⟨rfl, hk.limits, hk.records, hk.entries, hk.order, hk.dictionary, ?_⟩
    simp [hk.counters]

end Keeps

theorem erase_perm {m : SnapshotMap} {first : Nat × Snapshot} {rest : List (Nat × Snapshot)}
    (h : m.entries.Perm (first :: rest)) : (m.erase first.1).entries.Perm rest := by
  have hdistinct := (h.map Prod.fst).nodup_iff.mp m.distinct
  have hrest : rest.filter (·.1 ≠ first.1) = rest := by
    rw [List.filter_eq_self]
    intro entry hentry
    have hne : entry.1 ≠ first.1 := by
      intro heq
      exact (List.nodup_cons.mp hdistinct).1 (heq ▸ List.mem_map_of_mem hentry)
    simpa using hne
  have hfilter := h.filter (·.1 ≠ first.1)
  rw [List.filter_cons_of_neg (by simp), hrest] at hfilter
  exact hfilter

/-- Exactly the surplus is taken off the front of the queue. -/
theorem makeRoom_spec {limit : Nat} (hlimit : 0 < limit) {m : SnapshotMap}
    {held : List (Nat × Snapshot)} (h : m.entries.Perm held) (evictions : Nat) :
    let room := makeRoom limit m evictions (held.map Prod.fst)
    let left := held.drop (held.length + 1 - limit)
    room.1.entries.Perm left ∧ room.2.1 = left.map Prod.fst ∧
      room.2.2 = evictions + (held.length + 1 - limit) := by
  induction held generalizing m evictions with
  | nil =>
    have hzero : 0 + 1 - limit = 0 := by omega
    simp only [List.map_nil, makeRoom, List.length_nil, hzero]
    exact ⟨h, rfl, rfl⟩
  | cons first rest ih =>
    have hsize : m.size = rest.length + 1 := h.length_eq
    rw [List.map_cons, makeRoom, hsize, List.length_cons]
    by_cases hfull : limit ≤ rest.length + 1
    · have hsurplus : rest.length + 1 + 1 - limit = rest.length + 1 - limit + 1 := by omega
      rw [if_pos hfull, hsurplus, List.drop_succ_cons]
      obtain ⟨hentries, horder, hcount⟩ := ih (erase_perm h) (evictions + 1)
      refine ⟨hentries, horder, ?_⟩
      rw [hcount]
      omega
    · have hsurplus : rest.length + 1 + 1 - limit = 0 := by omega
      rw [if_neg hfull, hsurplus, List.drop_zero]
      exact ⟨h, rfl, rfl⟩

theorem insert_perm {m : SnapshotMap} {held : List (Nat × Snapshot)} (h : m.entries.Perm held)
    {id : Nat} (hnew : id ∉ held.map Prod.fst) (snapshot : Snapshot) :
    (m.insert id snapshot).entries.Perm (held ++ [(id, snapshot)]) := by
  have herase : (m.erase id).entries = m.entries := by
    refine List.filter_eq_self.mpr fun entry hentry => ?_
    have hne : entry.1 ≠ id := by
      rintro rfl
      exact hnew (List.mem_map_of_mem (h.mem_iff.mp hentry))
    simpa using hne
  change ((id, snapshot) :: (m.erase id).entries).Perm _
  rw [herase]
  exact (h.cons _).trans (List.perm_append_singleton _ _).symm

theorem Keeps.store {s : SnapshotStore} {h : History} (hk : s.Keeps h) (id : Nat)
    (levels : List Nat) (g : Grouping) (loss : Loss) (sourceSize : Option Nat) :
    (s.store id levels g loss sourceSize).1 = (h.store id levels g loss sourceSize).1 ∧
      (s.store id levels g loss sourceSize).2.Keeps (h.store id levels g loss sourceSize).2 := by
  unfold SnapshotStore.store History.store
  rw [hk.accepts_eq]
  split_ifs with haccepts
  · obtain ⟨hlimit, hfind, -, -⟩ := History.accepts_iff.mp haccepts
    obtain ⟨hentries, horder, hcount⟩ := makeRoom_spec (Nat.pos_of_ne_zero hlimit) hk.entries
      s.counters.evictions
    rw [← hk.order, ← hk.limits] at hentries horder hcount
    obtain ⟨left, queue, evictions, hroom⟩ : ∃ left queue evictions,
        makeRoom s.limits.maxEntries s.snapshots s.counters.evictions s.order =
          (left, queue, evictions) := ⟨_, _, _, rfl⟩
    rw [hroom] at hentries horder hcount
    have hnew : id ∉ (h.held.drop (h.held.length + 1 - s.limits.maxEntries)).map Prod.fst :=
      fun hmem => History.notMem_of_find? hfind
        ((List.drop_sublist _ _).map Prod.fst |>.subset hmem)
    simp only [hroom, true_and]
    refine ⟨hk.limits, hk.records, ?_, ?_, ?_, ?_⟩
    · rw [hk.dictionary]
      simpa [History.size, hk.limits] using insert_perm hentries hnew _
    · simp only at horder
      simp [horder, History.size, hk.limits]
    · rw [hk.dictionary]
    · simp only at hcount
      simp [hcount, hk.counters, History.size, hk.limits]
  · exact ⟨rfl, hk⟩

end SnapshotStore

/-! ## Numbers of distributions -/

/-- Every number in the records of a snapshot stands for a distribution. -/
def Snapshot.Resolved (dictionary : Dictionary) (s : Snapshot) : Prop :=
  ∃ records, s.records? = some records ∧
    ∀ r ∈ records, ∀ n ∈ r.distribution, (dictionary.find? n).isSome

theorem Snapshot.Resolved.extends {d e : Dictionary} (h : d.Extends e) {s : Snapshot}
    (hs : s.Resolved d) : s.Resolved e := by
  obtain ⟨records, hrecords, hall⟩ := hs
  refine ⟨records, hrecords, fun r hr n hn => ?_⟩
  obtain ⟨x, hx⟩ := Option.isSome_iff_exists.mp (hall r hr n hn)
  rw [h.find? hx, Option.isSome_some]

theorem Dictionary.find?_isSome_of_lt {d : Dictionary} {n : Nat} (h : n < d.size) :
    (d.find? n).isSome := by
  rw [Dictionary.find?, List.getElem?_eq_getElem h, Option.isSome_some]

/-- Even numbers that have wrapped around stand for some distribution. -/
theorem Snapshot.resolved_ofGrouping (levels : List Nat) (g : Grouping) (d : Dictionary) :
    (ofGrouping levels g d).1.Resolved (ofGrouping levels g d).2 := by
  refine ⟨_, records?_ofGrouping levels g d, fun r hr n hn => ?_⟩
  obtain ⟨i, hi⟩ := List.mem_iff_getElem?.mp hr
  have hlt : i < g.classes.length := by
    rw [← length_recordsOf g.tracks g.classes d]
    exact (List.getElem?_eq_some_iff.mp hi).1
  obtain ⟨between, hrecord, hextends⟩ :=
    exists_dictionary g.tracks d (List.getElem?_eq_getElem hlt)
  obtain rfl : recordOf g.tracks g.classes[i] between = r :=
    Option.some.inj (hrecord.symm.trans hi)
  cases htracks : g.tracks with
  | false => simp [recordOf, htracks] at hn
  | true =>
    cases hx : g.classes[i].distribution with
    | none => simp [recordOf, hx] at hn
    | some x =>
      obtain ⟨place, y, hplace, hy, -⟩ := between.exists_place x
      have hown : n = (between.intern x).1 := by
        simp only [recordOf, htracks, hx, if_true, Option.bind_some, Option.mem_def] at hn
        split_ifs at hn
        exact (Option.some.inj hn).symm
      have hwords : (wordsOf g.tracks g.classes[i] between).2 = (between.intern x).2 := by
        simp [wordsOf, htracks, hx]
      rw [hwords] at hextends
      apply Dictionary.find?_isSome_of_lt
      calc n = place % 2 ^ 32 := hown.trans hplace
        _ ≤ place := Nat.mod_le _ _
        _ < (between.intern x).2.size := (List.getElem?_eq_some_iff.mp hy).1
        _ ≤ (ofGrouping levels g d).2.size := hextends.size_le

/-! ## Sequences of operations -/

inductive HistoryStep where
  | store (id : Nat) (levels : List Nat) (g : Grouping) (loss : Loss) (sourceSize : Option Nat)
  | lookup (levels : List Nat)
  | retain (retention : Retention)
  | reset

def HistoryStep.isLookup : HistoryStep → Bool
  | .lookup _ => true
  | _ => false

def History.perform (h : History) : HistoryStep → History
  | .store id levels g loss sourceSize => (h.store id levels g loss sourceSize).2
  | .lookup levels => (h.findClosest levels).2
  | .retain retention => h.setRetention retention
  | .reset => h.reset

namespace SnapshotStore

def perform (s : SnapshotStore) : HistoryStep → SnapshotStore
  | .store id levels g loss sourceSize => (s.store id levels g loss sourceSize).2
  | .lookup levels => (s.findClosest levels).2
  | .retain retention => s.setRetention retention
  | .reset => s.reset

theorem Keeps.perform {s : SnapshotStore} {h : History} (hk : s.Keeps h) (step : HistoryStep) :
    (s.perform step).Keeps (h.perform step) := by
  cases step with
  | store id levels g loss sourceSize => exact (hk.store id levels g loss sourceSize).2
  | lookup levels => exact (hk.findClosest levels).2
  | retain retention => exact hk.setRetention retention
  | reset => exact hk.reset

/-- The transformations stored since the last reset, with those that an operation stores. -/
def logged (s : SnapshotStore) (log : List Nat) : HistoryStep → List Nat
  | .store id levels g loss sourceSize =>
    if (s.store id levels g loss sourceSize).1 then log ++ [id] else log
  | .reset => []
  | _ => log

/-- A store that operations lead to, with the transformations stored since the last reset. -/
def run (s : SnapshotStore) (log : List Nat) : List HistoryStep → SnapshotStore × List Nat
  | [] => (s, log)
  | step :: steps => (s.perform step).run (s.logged log step) steps

end SnapshotStore

namespace History

/-- What holds of a history after any operations; `log` lists what was stored since the last
reset. -/
structure Sane (limits : HistoryLimits) (records : Nat) (log : List Nat) (h : History) : Prop where
  limits_eq : h.limits = { limits with retention := h.limits.retention }
  records_eq : h.records = records
  size_le : h.size ≤ limits.maxEntries
  distinct : (h.held.map Prod.fst).Nodup
  recent : h.held.map Prod.fst <:+ log
  resolved : ∀ entry ∈ h.held, entry.2.Resolved h.dictionary

variable {limits : HistoryLimits} {records : Nat} {log : List Nat} {h : History}

theorem sane_empty : (empty limits records).Sane limits records [] :=
  ⟨rfl, rfl, Nat.zero_le _, List.nodup_nil, List.suffix_refl _, fun _ h => by cases h⟩

theorem store_of_accepts {id : Nat} {levels : List Nat} {g : Grouping} {loss : Loss}
    {sourceSize : Option Nat} (haccepts : h.accepts id g.size loss sourceSize = true) :
    h.store id levels g loss sourceSize = (true, { h with
      held := h.held.drop (h.size + 1 - h.limits.maxEntries) ++
        [(id, (Snapshot.ofGrouping levels g h.dictionary).1)]
      dictionary := (Snapshot.ofGrouping levels g h.dictionary).2
      counters := { h.counters with
        stored := h.counters.stored + 1
        evictions := h.counters.evictions + (h.size + 1 - h.limits.maxEntries) } }) := by
  rw [store, if_pos haccepts]

theorem store_of_refused {id : Nat} {levels : List Nat} {g : Grouping} {loss : Loss}
    {sourceSize : Option Nat} (haccepts : ¬ h.accepts id g.size loss sourceSize = true) :
    h.store id levels g loss sourceSize = (false, h) := by
  rw [store, if_neg haccepts]

theorem Sane.store (hs : h.Sane limits records log) {id : Nat} {levels : List Nat}
    {g : Grouping} {loss : Loss} {sourceSize : Option Nat}
    (haccepts : h.accepts id g.size loss sourceSize = true) :
    (h.store id levels g loss sourceSize).2.Sane limits records (log ++ [id]) := by
  obtain ⟨hlimit, hfind, -, -⟩ := accepts_iff.mp haccepts
  have hmax : h.limits.maxEntries = limits.maxEntries := congrArg (·.maxEntries) hs.limits_eq
  have hsize := hs.size_le
  let surplus := h.size + 1 - h.limits.maxEntries
  have hleft : (h.held.drop surplus).map Prod.fst <:+ h.held.map Prod.fst := by
    rw [List.map_drop]
    exact List.drop_suffix _ _
  rw [store_of_accepts haccepts]
  refine ⟨hs.limits_eq, hs.records_eq, ?_, ?_, ?_, ?_⟩
  · simp only [size, List.length_append, List.length_drop, List.length_singleton] at hsize ⊢
    omega
  · rw [List.map_append, List.map_singleton, ← List.concat_eq_append]
    exact (hs.distinct.sublist hleft.sublist).concat
      fun hmem => notMem_of_find? hfind (hleft.subset hmem)
  · rw [List.map_append, List.map_singleton]
    obtain ⟨before, hbefore⟩ := hleft.trans hs.recent
    exact ⟨before, by rw [← List.append_assoc, hbefore]⟩
  · intro entry hentry
    rcases List.mem_append.mp hentry with hold | hnew
    · exact (hs.resolved entry (List.mem_of_mem_drop hold)).extends
        (Snapshot.extends_wordsOfAll _ _ _)
    · rw [List.mem_singleton.mp hnew]
      exact Snapshot.resolved_ofGrouping levels g h.dictionary

theorem Sane.findClosest (hs : h.Sane limits records log) (levels : List Nat) :
    (h.findClosest levels).2.Sane limits records log := by
  unfold History.findClosest
  cases h.closest? levels <;>
    exact ⟨hs.limits_eq, hs.records_eq, hs.size_le, hs.distinct, hs.recent, hs.resolved⟩

theorem Sane.setRetention (hs : h.Sane limits records log) (retention : Retention) :
    (h.setRetention retention).Sane limits records log := by
  refine ⟨?_, hs.records_eq, hs.size_le, hs.distinct, hs.recent, hs.resolved⟩
  rw [History.setRetention, hs.limits_eq]

theorem Sane.reset (hs : h.Sane limits records log) : h.reset.Sane limits records [] :=
  ⟨hs.limits_eq, hs.records_eq, Nat.zero_le _, List.nodup_nil, List.suffix_refl _,
    fun _ hentry => by cases hentry⟩

theorem Sane.perform (hs : h.Sane limits records log) {s : SnapshotStore} (hk : s.Keeps h)
    (step : HistoryStep) : (h.perform step).Sane limits records (s.logged log step) := by
  cases step with
  | store id levels g loss sourceSize =>
    rw [SnapshotStore.logged, (hk.store id levels g loss sourceSize).1]
    by_cases haccepts : h.accepts id g.size loss sourceSize = true
    · rw [store_of_accepts haccepts, if_pos rfl]
      exact hs.store haccepts
    · rw [store_of_refused haccepts, if_neg Bool.false_ne_true, History.perform,
        store_of_refused haccepts]
      exact hs
  | lookup levels => exact hs.findClosest levels
  | retain retention => exact hs.setRetention retention
  | reset => exact hs.reset

theorem lookups_perform (h : History) (step : HistoryStep) :
    (h.perform step).counters.hits + (h.perform step).counters.misses =
      h.counters.hits + h.counters.misses + step.isLookup.toNat := by
  cases step with
  | store id levels g loss sourceSize =>
    by_cases haccepts : h.accepts id g.size loss sourceSize = true
    · rw [perform, store_of_accepts haccepts]
      rfl
    · rw [perform, store_of_refused haccepts]
      rfl
  | lookup levels =>
    rw [perform, findClosest]
    cases h.closest? levels <;> simp [HistoryStep.isLookup] <;> omega
  | retain retention => rfl
  | reset => rfl

/-- But for resets, what was stored is held or was evicted. -/
theorem stored_perform (h : History) {step : HistoryStep} (hstep : step ≠ .reset)
    (hbalance : h.counters.stored = h.counters.evictions + h.size) :
    (h.perform step).counters.stored =
      (h.perform step).counters.evictions + (h.perform step).size := by
  cases step with
  | store id levels g loss sourceSize =>
    by_cases haccepts : h.accepts id g.size loss sourceSize = true
    · obtain ⟨hlimit, -⟩ := accepts_iff.mp haccepts
      rw [perform, store_of_accepts haccepts]
      simp only [size, List.length_append, List.length_drop, List.length_singleton] at hbalance ⊢
      omega
    · rw [perform, store_of_refused haccepts]
      exact hbalance
  | lookup levels =>
    rw [perform, findClosest]
    cases h.closest? levels <;> exact hbalance
  | retain retention => exact hbalance
  | reset => exact absurd rfl hstep

end History

namespace SnapshotStore

/-- A store after any operations keeps a history of which all that is said of histories holds. -/
theorem exists_history (limits : HistoryLimits) (records : Nat) {s : SnapshotStore}
    {log : List Nat} {h : History} (hk : s.Keeps h) (hs : h.Sane limits records log)
    (steps : List HistoryStep) :
    ∃ h' : History, h' = steps.foldl History.perform h ∧ (s.run log steps).1.Keeps h' ∧
      h'.Sane limits records (s.run log steps).2 ∧
      h'.counters.hits + h'.counters.misses =
        h.counters.hits + h.counters.misses + steps.countP (·.isLookup) ∧
      ((∀ step ∈ steps, step ≠ .reset) → h.counters.stored = h.counters.evictions + h.size →
        h'.counters.stored = h'.counters.evictions + h'.size) := by
  induction steps generalizing s log h with
  | nil => exact ⟨h, rfl, hk, hs, rfl, fun _ hbalance => hbalance⟩
  | cons step steps ih =>
    obtain ⟨after, hafter, hkeeps, hsane, hlookups, hstored⟩ :=
      ih (hk.perform step) (hs.perform hk step)
    refine ⟨after, hafter, hkeeps, hsane, ?_, fun hsteps hbalance => ?_⟩
    · rw [hlookups, h.lookups_perform, List.countP_cons]
      cases step.isLookup
      · simp
      · simp
        omega
    · exact hstored (fun other hother => hsteps other (List.mem_cons_of_mem _ hother))
        (h.stored_perform (hsteps step List.mem_cons_self) hbalance)

section
variable {limits : HistoryLimits} {records : Nat} {log : List Nat} {s : SnapshotStore}
  {h : History}

theorem find?_eq_some (s : SnapshotStore) {id : Nat} {snapshot : Snapshot} :
    s.find? id = some snapshot ↔ (id, snapshot) ∈ s.snapshots.entries :=
  lookup_eq_some_iff s.snapshots.distinct

theorem Keeps.mem_order (hk : s.Keeps h) (id : Nat) : id ∈ s.order ↔ (s.find? id).isSome := by
  rw [hk.order, Option.isSome_iff_exists, List.mem_map]
  constructor
  · rintro ⟨⟨own, snapshot⟩, hentry, rfl⟩
    exact ⟨snapshot, s.find?_eq_some.mpr (hk.entries.mem_iff.mpr hentry)⟩
  · rintro ⟨snapshot, hfind⟩
    exact ⟨(id, snapshot), hk.entries.mem_iff.mp (s.find?_eq_some.mp hfind), rfl⟩

theorem Keeps.store_iff (hk : s.Keeps h) (hs : h.Sane limits records log) (id : Nat)
    (levels : List Nat) (g : Grouping) (loss : Loss) (sourceSize : Option Nat) :
    (s.store id levels g loss sourceSize).1 = true ↔
      s.find? id = none ∧ limits.maxEntries ≠ 0 ∧
      (s.limits.retention = .all ∨
        s.limits.retention = .aboveThreshold ∧ limits.lossThreshold < loss.value ∨
        s.limits.retention = .belowThreshold ∧ loss.value < limits.lossThreshold) ∧
      ¬ limits.datasetRatio * Binary64.ofCount records < Binary64.ofCount g.size ∧
      ∀ source ∈ sourceSize,
        ¬ limits.sourceRatio * Binary64.ofCount source < Binary64.ofCount g.size := by
  have haccepts : (h.store id levels g loss sourceSize).1 =
      h.accepts id g.size loss sourceSize := by
    unfold History.store
    split_ifs with haccepts
    · exact haccepts.symm
    · exact (Bool.eq_false_of_not_eq_true haccepts).symm
  rw [(hk.store id levels g loss sourceSize).1, haccepts, History.accepts_iff, hk.find?_eq,
    History.retains_iff, History.fits_iff, hk.limits, hs.limits_eq, hs.records_eq]
  tauto

/-- A stored snapshot is the youngest one; a full store loses its oldest one for it. -/
theorem Keeps.store_order (hk : s.Keeps h) (hs : h.Sane limits records log) {id : Nat}
    {levels : List Nat} {g : Grouping} {loss : Loss} {sourceSize : Option Nat}
    (hstored : (s.store id levels g loss sourceSize).1 = true) :
    (s.store id levels g loss sourceSize).2.order =
      (if s.size < limits.maxEntries then s.order else s.order.tail) ++ [id] ∧
      (s.store id levels g loss sourceSize).2.find? id =
        some (Snapshot.ofGrouping levels g s.dictionary).1 ∧
      ∀ other ∈ (s.store id levels g loss sourceSize).2.order, other ≠ id →
        (s.store id levels g loss sourceSize).2.find? other = s.find? other := by
  obtain ⟨hsame, hafter⟩ := hk.store id levels g loss sourceSize
  have haccepts : h.accepts id g.size loss sourceSize = true := by
    by_contra hrefused
    rw [hsame, History.store_of_refused hrefused] at hstored
    cases hstored
  rw [History.store_of_accepts haccepts] at hafter
  have hmax : h.limits.maxEntries = limits.maxEntries := congrArg (·.maxEntries) hs.limits_eq
  have hsize := hs.size_le
  refine ⟨?_, ?_, fun other hother hne => ?_⟩
  · rw [hafter.order, List.map_append, List.map_drop, ← hk.order, hmax, hk.size_eq]
    split_ifs with hroom
    · have hnone : h.size + 1 - limits.maxEntries = 0 := by omega
      rw [hnone]
      rfl
    · have hone : h.size + 1 - limits.maxEntries = 1 := by omega
      rw [hone, List.drop_one]
      rfl
  · rw [find?_eq_some, hafter.entries.mem_iff, hk.dictionary]
    exact List.mem_append_right _ List.mem_cons_self
  · rw [hafter.order, List.map_append, List.mem_append] at hother
    obtain ⟨⟨own, snapshot⟩, hentry, rfl⟩ := List.mem_map.mp
      (hother.resolve_right fun hnew => hne (List.mem_singleton.mp hnew))
    have hnow : (own, snapshot) ∈ (s.store id levels g loss sourceSize).2.snapshots.entries :=
      hafter.entries.mem_iff.mpr (List.mem_append_left _ hentry)
    have hbefore : (own, snapshot) ∈ s.snapshots.entries :=
      hk.entries.mem_iff.mpr (List.mem_of_mem_drop hentry)
    exact (find?_eq_some _).mpr hnow |>.trans (s.find?_eq_some.mpr hbefore).symm

/-- What is found is usable and no dearer than anything else that is usable. -/
theorem findClosest_spec (s : SnapshotStore) (levels : List Nat) :
    (∃ counters, (s.findClosest levels).2 = { s with counters }) ∧
    ((s.findClosest levels).1 = none → ∀ id snapshot, s.find? id = some snapshot →
      ¬ List.Forall₂ (· ≤ ·) snapshot.levels levels) ∧
    ∀ id, (s.findClosest levels).1 = some id → ∃ snapshot, s.find? id = some snapshot ∧
      List.Forall₂ (· ≤ ·) snapshot.levels levels ∧
      ∀ other found, s.find? other = some found → List.Forall₂ (· ≤ ·) found.levels levels →
        snapshot.size < found.size ∨ snapshot.size = found.size ∧ id ≤ other := by
  have husable : ∀ id snapshot, s.find? id = some snapshot →
      List.Forall₂ (· ≤ ·) snapshot.levels levels →
        (id, snapshot) ∈ s.snapshots.entries.filter fun entry => entry.2.usableFor levels :=
    fun id snapshot hfind hle => List.mem_filter.mpr
      ⟨s.find?_eq_some.mp hfind, Snapshot.usableFor_iff.mpr hle⟩
  cases hcheapest : History.cheapest? (s.snapshots.entries.filter fun entry =>
      entry.2.usableFor levels) with
  | none =>
    have hresult : s.findClosest levels = (none, { s with
        counters := { s.counters with misses := s.counters.misses + 1 } }) := by
      simp only [findClosest, hcheapest]
    rw [hresult]
    refine ⟨⟨_, rfl⟩, fun _ id snapshot hfind hle => ?_, fun id hid => by cases hid⟩
    have hmem := husable id snapshot hfind hle
    rw [History.cheapest?_eq_none.mp hcheapest] at hmem
    cases hmem
  | some found =>
    obtain ⟨own, snapshot⟩ := found
    have hresult : s.findClosest levels = (some own, { s with
        counters := { s.counters with hits := s.counters.hits + 1 } }) := by
      simp only [findClosest, hcheapest]
    rw [hresult]
    refine ⟨⟨_, rfl⟩, ?_, fun id hid => ?_⟩
    · intro hnone
      cases hnone
    obtain rfl : own = id := Option.some.inj hid
    obtain ⟨hmem, hle⟩ := List.mem_filter.mp (History.cheapest?_mem hcheapest)
    exact ⟨snapshot, s.find?_eq_some.mpr hmem, Snapshot.usableFor_iff.mp hle,
      fun other others hfind hothers =>
        History.noDearer_cheapest? hcheapest _ (husable other others hfind hothers)⟩

end

/-- After any operations on a new store: it holds no more snapshots than the limit allows; the
queue lists what is held once, in the order of storing, so that the oldest is evicted first; a
grouping is stored exactly under the conditions of the limits and otherwise changes nothing; a
lookup finds the cheapest usable snapshot if there is one; the counters add up; and the
dictionary knows the distributions of all snapshots. The history of the same operations holds
the same. -/
theorem run_invariant (limits : HistoryLimits) (records : Nat) (steps : List HistoryStep) :
    let s := ((empty limits records).run [] steps).1
    let log := ((empty limits records).run [] steps).2
    s.size ≤ limits.maxEntries ∧
    (s.order.Nodup ∧ (∀ id, id ∈ s.order ↔ (s.find? id).isSome) ∧ s.order <:+ log) ∧
    (∀ id levels g loss sourceSize,
      let after := s.store id levels g loss sourceSize
      (after.1 = true ↔ s.find? id = none ∧ limits.maxEntries ≠ 0 ∧
        (s.limits.retention = .all ∨
          s.limits.retention = .aboveThreshold ∧ limits.lossThreshold < loss.value ∨
          s.limits.retention = .belowThreshold ∧ loss.value < limits.lossThreshold) ∧
        ¬ limits.datasetRatio * Binary64.ofCount records < Binary64.ofCount g.size ∧
        ∀ source ∈ sourceSize,
          ¬ limits.sourceRatio * Binary64.ofCount source < Binary64.ofCount g.size) ∧
      (after.1 = false → after.2 = s) ∧
      (after.1 = true →
        after.2.order = (if s.size < limits.maxEntries then s.order else s.order.tail) ++ [id] ∧
        after.2.find? id = some (Snapshot.ofGrouping levels g s.dictionary).1 ∧
        ∀ other ∈ after.2.order, other ≠ id → after.2.find? other = s.find? other)) ∧
    (∀ levels,
      (∃ counters, (s.findClosest levels).2 = { s with counters }) ∧
      ((s.findClosest levels).1 = none → ∀ id snapshot, s.find? id = some snapshot →
        ¬ List.Forall₂ (· ≤ ·) snapshot.levels levels) ∧
      ∀ id, (s.findClosest levels).1 = some id → ∃ snapshot, s.find? id = some snapshot ∧
        List.Forall₂ (· ≤ ·) snapshot.levels levels ∧
        ∀ other found, s.find? other = some found →
          List.Forall₂ (· ≤ ·) found.levels levels →
          snapshot.size < found.size ∨ snapshot.size = found.size ∧ id ≤ other) ∧
    (s.counters.hits + s.counters.misses = steps.countP (·.isLookup) ∧
      ((∀ step ∈ steps, step ≠ .reset) →
        s.counters.stored = s.counters.evictions + s.size)) ∧
    (∀ id snapshot, s.find? id = some snapshot → snapshot.Resolved s.dictionary) ∧
    s.Keeps (steps.foldl History.perform (History.empty limits records)) := by
  intro s log
  obtain ⟨h, rfl, hk, hs, hlookups, hstored⟩ := exists_history limits records
    (keeps_empty limits records) History.sane_empty steps
  change s.Keeps _ at hk
  refine ⟨?_, ⟨?_, hk.mem_order, ?_⟩, fun id levels g loss sourceSize => ⟨?_, ?_, ?_⟩,
    s.findClosest_spec, ⟨?_, fun hsteps => ?_⟩, fun id snapshot hfind => ?_, hk⟩
  · rw [hk.size_eq]
    exact hs.size_le
  · rw [hk.order]
    exact hk.distinct
  · rw [hk.order]
    exact hs.recent
  · exact hk.store_iff hs id levels g loss sourceSize
  · unfold store
    split_ifs
    · exact fun hfalse => by cases hfalse
    · exact fun _ => rfl
  · exact hk.store_order hs
  · rw [hk.counters, hlookups]
    simp [History.empty]
  · rw [hk.counters, hk.size_eq]
    exact hstored hsteps rfl
  · rw [hk.dictionary]
    exact hs.resolved _ (hk.entries.mem_iff.mp (s.find?_eq_some.mp hfind))

end SnapshotStore
end Recoding
