import Recoding.Grouping.History
import Recoding.Proofs.Grouping.Rearranged
import Recoding.Proofs.Grouping.Snapshots

/-!
# Histories of the same shape

A history decides by the levels and the sizes of its snapshots what to find, to store and to
drop. Two histories of the same shape decide alike, whatever their snapshots hold, and stay of the
same shape when they are offered permuted groupings. Their dictionaries intern the same
distributions, in any order.
-/

namespace Recoding

/-! ## Dictionaries -/

namespace Dictionary

/-- Two dictionaries of the same distributions, each listed once. -/
structure Same (d e : Dictionary) : Prop where
  perm : d.distributions.Perm e.distributions
  nodup : d.distributions.Nodup

theorem Same.size_eq {d e : Dictionary} (h : d.Same e) : d.size = e.size := h.perm.length_eq

theorem distributions_intern {d : Dictionary} (hd : d.Sound) {x : Distribution}
    (hx : x.Narrow) : (d.intern x).2.distributions =
      if x ∈ d.distributions then d.distributions else d.distributions ++ [x] := by
  unfold intern
  split
  · rename_i id hfind
    obtain ⟨hlt, hencode, -⟩ := List.findIdx?_eq_some_iff_getElem.mp hfind
    have heq := (hd _ (List.getElem_mem hlt)).encode_injective hx (of_decide_eq_true hencode)
    rw [if_pos (heq ▸ List.getElem_mem hlt)]
  · rename_i hfind
    rw [List.findIdx?_eq_none_iff] at hfind
    rw [if_neg]
    intro hmem
    simpa using hfind x hmem

/-- What a dictionary lists after it has interned some distributions. -/
structure Lists (d : Dictionary) (new : Distribution → Prop) (after : Dictionary) : Prop where
  sound : after.Sound
  nodup : after.distributions.Nodup
  mem : ∀ x, x ∈ after.distributions ↔ x ∈ d.distributions ∨ new x

theorem lists_intern {d : Dictionary} (hd : d.Sound) (hnodup : d.distributions.Nodup)
    {x : Distribution} (hx : x.Narrow) : d.Lists (· = x) (d.intern x).2 := by
  have hlist := distributions_intern hd hx
  split_ifs at hlist with hmem
  · refine ⟨fun y hy => hd y (hlist ▸ hy), hlist ▸ hnodup, fun y => ?_⟩
    rw [hlist]
    exact ⟨Or.inl, fun h => h.elim id fun h => h ▸ hmem⟩
  · refine ⟨fun y hy => ?_, ?_, fun y => ?_⟩
    · rw [hlist, List.mem_append, List.mem_singleton] at hy
      exact hy.elim (hd y) fun h => h ▸ hx
    · rw [hlist, List.nodup_append_comm]
      simpa using ⟨hmem, hnodup⟩
    · rw [hlist, List.mem_append, List.mem_singleton]

theorem lists_refl {d : Dictionary} (hd : d.Sound) (hnodup : d.distributions.Nodup) :
    d.Lists (fun _ => False) d := ⟨hd, hnodup, fun _ => by simp⟩

end Dictionary

/-! ## Snapshots -/

namespace Snapshot

theorem lists_wordsOf {tracks : Bool} {e : EquivalenceClass} (he : e.Narrow tracks)
    {d : Dictionary} (hd : d.Sound) (hnodup : d.distributions.Nodup) :
    d.Lists (fun x => tracks = true ∧ e.distribution = some x) (wordsOf tracks e d).2 := by
  unfold wordsOf
  cases tracks with
  | false =>
    have hrefl := Dictionary.lists_refl hd hnodup
    exact ⟨hrefl.sound, hrefl.nodup, fun x => by simp⟩
  | true =>
    cases hdistribution : e.distribution with
    | none =>
      have hrefl := Dictionary.lists_refl hd hnodup
      exact ⟨hrefl.sound, hrefl.nodup, fun x => by simp⟩
    | some y =>
      have hlists := Dictionary.lists_intern hd hnodup (he.distribution y hdistribution)
      exact ⟨hlists.sound, hlists.nodup, fun x => by rw [if_pos rfl, hlists.mem]; simp [eq_comm]⟩

theorem lists_wordsOfAll {tracks : Bool} {classes : List EquivalenceClass}
    (hc : ∀ e ∈ classes, e.Narrow tracks) {d : Dictionary} (hd : d.Sound)
    (hnodup : d.distributions.Nodup) :
    d.Lists (fun x => tracks = true ∧ some x ∈ classes.map (·.distribution))
      (wordsOfAll tracks classes d).2 := by
  induction classes generalizing d with
  | nil =>
    have hrefl := Dictionary.lists_refl hd hnodup
    exact ⟨hrefl.sound, hrefl.nodup, fun x => by simp [wordsOfAll]⟩
  | cons e rest ih =>
    have hfirst := lists_wordsOf (hc e List.mem_cons_self) hd hnodup
    have hrest := ih (fun x hx => hc x (List.mem_cons_of_mem _ hx)) hfirst.sound hfirst.nodup
    refine ⟨hrest.sound, hrest.nodup, fun x => ?_⟩
    rw [wordsOfAll, hrest.mem, hfirst.mem, List.map_cons, List.mem_cons]
    tauto

theorem same_ofGrouping {g other : Grouping} (h : g.Permuted other)
    (htracks : g.tracks = other.tracks) (hg : ∀ e ∈ g.classes, e.Narrow g.tracks)
    (ho : ∀ e ∈ other.classes, e.Narrow other.tracks) {d e : Dictionary} (hd : d.Sound)
    (he : e.Sound) (hsame : d.Same e) (levels : List Nat) :
    (ofGrouping levels g d).2.Same (ofGrouping levels other e).2 := by
  have hleft := lists_wordsOfAll hg hd hsame.nodup
  have hright := lists_wordsOfAll ho he (hsame.perm.nodup_iff.mp hsame.nodup)
  have hmap := h.map (·.distribution) fun _ => rfl
  refine ⟨?_, hleft.nodup⟩
  refine (List.perm_ext_iff_of_nodup hleft.nodup hright.nodup).mpr fun x => ?_
  rw [hleft.mem, hright.mem, hsame.perm.mem_iff, htracks, hmap.mem_iff]

end Snapshot

/-! ## Histories -/

/-- Two snapshots of one transformation with equally many classes. -/
structure Snapshot.Mirrors (a b : Nat × Snapshot) : Prop where
  id : a.1 = b.1
  levels : a.2.levels = b.2.levels
  size : a.2.size = b.2.size

namespace History

/-- Two histories that decide alike. -/
structure Mirrors (h k : History) : Prop where
  limits : h.limits = k.limits
  records : h.records = k.records
  counters : h.counters = k.counters
  held : List.Forall₂ Snapshot.Mirrors h.held k.held
  dictionary : h.dictionary.Same k.dictionary

theorem mirrors_empty (limits : HistoryLimits) (records : Nat) :
    (empty limits records).Mirrors (empty limits records) :=
  ⟨rfl, rfl, rfl, .nil, .refl _, List.nodup_nil⟩

theorem Mirrors.setRetention {h k : History} (hk : h.Mirrors k) (retention : Retention) :
    (h.setRetention retention).Mirrors (k.setRetention retention) :=
  ⟨by unfold History.setRetention; rw [hk.limits], hk.records, hk.counters, hk.held, hk.dictionary⟩

theorem mirrors_cheapest {xs ys : List (Nat × Snapshot)} (h : List.Forall₂ Snapshot.Mirrors xs ys) :
    Option.Rel Snapshot.Mirrors (cheapest? xs) (cheapest? ys) := by
  induction h with
  | nil => exact .none
  | @cons a b xs ys hab _ ih =>
    rw [cheapest?, cheapest?]
    rcases hx : cheapest? xs with _ | c <;> rcases hy : cheapest? ys with _ | d <;>
      rw [hx, hy] at ih <;> cases ih
    · exact .some hab
    · rename_i hcd
      have hcheaper : cheaper c a = cheaper d b := by
        unfold cheaper
        rw [hcd.id, hcd.size, hab.id, hab.size]
      dsimp only
      rw [hcheaper]
      split_ifs
      · exact .some hcd
      · exact .some hab

theorem Mirrors.closest {h k : History} (hk : h.Mirrors k) (levels : List Nat) :
    Option.Rel Snapshot.Mirrors (h.closest? levels) (k.closest? levels) := by
  apply mirrors_cheapest
  refine List.rel_filter ?_ hk.held
  intro a b hab
  have husable : a.2.usableFor levels = b.2.usableFor levels := by
    unfold Snapshot.usableFor
    rw [hab.levels]
  exact Bool.eq_iff_iff.mp husable

theorem Mirrors.findClosest {h k : History} (hk : h.Mirrors k) (levels : List Nat) :
    Option.Rel Snapshot.Mirrors (h.findClosest levels).1 (k.findClosest levels).1 ∧
      (h.findClosest levels).2.Mirrors (k.findClosest levels).2 := by
  have hclosest := hk.closest levels
  unfold History.findClosest
  cases hh : h.closest? levels <;> cases hkk : k.closest? levels <;> rw [hh, hkk] at hclosest <;>
    cases hclosest
  · exact ⟨.none, hk.limits, hk.records, by rw [hk.counters], hk.held, hk.dictionary⟩
  · rename_i hfound
    exact ⟨.some hfound, hk.limits, hk.records, by rw [hk.counters], hk.held, hk.dictionary⟩

theorem mirrors_find {xs ys : List (Nat × Snapshot)} (h : List.Forall₂ Snapshot.Mirrors xs ys)
    (id : Nat) : (xs.lookup id).isNone = (ys.lookup id).isNone := by
  induction h with
  | nil => rfl
  | @cons a b xs ys hab _ ih =>
    obtain ⟨own, s⟩ := a
    obtain ⟨other, t⟩ := b
    obtain rfl : own = other := hab.id
    rw [List.lookup_cons, List.lookup_cons]
    cases id == own
    · exact ih
    · rfl

theorem Mirrors.accepts {h k : History} (hk : h.Mirrors k) (id classes : Nat) (loss : Loss)
    (sourceSize : Option Nat) :
    h.accepts id classes loss sourceSize = k.accepts id classes loss sourceSize := by
  unfold History.accepts History.retains History.fits History.find?
  rw [hk.limits, hk.records, mirrors_find hk.held]

/-- Both histories store a grouping and drop the same transformations, or neither does. -/
theorem Mirrors.store {h k : History} (hk : h.Mirrors k) (hh : h.dictionary.Sound)
    (hkk : k.dictionary.Sound) {g other : Grouping} (hg : g.Permuted other)
    (htracks : g.tracks = other.tracks) (hnarrow : ∀ e ∈ g.classes, e.Narrow g.tracks)
    (hnarrow' : ∀ e ∈ other.classes, e.Narrow other.tracks) (id : Nat) (levels : List Nat)
    (loss : Loss) (sourceSize : Option Nat) :
    (h.store id levels g loss sourceSize).1 = (k.store id levels other loss sourceSize).1 ∧
      (h.store id levels g loss sourceSize).2.Mirrors
        (k.store id levels other loss sourceSize).2 := by
  have hsize : h.size = k.size := hk.held.length_eq
  unfold History.store
  rw [hg.size_eq, hk.accepts]
  split_ifs
  · refine ⟨rfl, hk.limits, hk.records, ?_, ?_, ?_⟩
    · dsimp only
      rw [hk.counters, hsize, hk.limits]
    · dsimp only
      rw [hsize, hk.limits]
      refine List.rel_append (List.forall₂_drop _ hk.held) (.cons ⟨rfl, rfl, ?_⟩ .nil)
      rw [Snapshot.size_ofGrouping, Snapshot.size_ofGrouping, hg.size_eq]
    · exact Snapshot.same_ofGrouping hg htracks hnarrow hnarrow' hh hkk hk.dictionary levels
  · exact ⟨rfl, hk⟩

end History
end Recoding
