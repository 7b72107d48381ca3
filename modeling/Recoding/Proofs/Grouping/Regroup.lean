import Recoding.Grouping.Basic
import Recoding.Proofs.Distribution.Joint
import Recoding.Proofs.Repetitions

/-!
# Regrouping

The classes of a grouping are described key by key: a class sums up the contributions with
its key. Grouping the classes of a grouping again, under keys that depend on their own
keys only, gives the same as grouping the contributions under those keys.
-/

namespace Recoding

namespace Grouping

/-- The keys of contributions in the order of their first occurrence. -/
def keysOf (cs : List Contribution) : List (List Nat) := (cs.map (·.key)).eraseDups

def withKey (key : List Nat) (cs : List Contribution) : List Contribution :=
  cs.filter (·.key = key)

def classOf (tracks : Bool) (key : List Nat) (cs : List Contribution) : EquivalenceClass where
  key := key
  representative := (cs.head?.map (·.representative)).getD 0
  count := (cs.map (·.count)).sum
  total := (cs.map (·.total)).sum
  distribution := if tracks then Distribution.joint (cs.map (·.distribution)) else none
  passed := false

@[simp] theorem classOf_key (tracks : Bool) (key : List Nat) (cs : List Contribution) :
    (classOf tracks key cs).key = key := rfl

theorem mem_keysOf {key : List Nat} {cs : List Contribution} :
    key ∈ keysOf cs ↔ ∃ c ∈ cs, c.key = key := by
  simp [keysOf]

theorem nodup_keysOf (cs : List Contribution) : (keysOf cs).Nodup := nodup_eraseDups _

theorem keysOf_concat (cs : List Contribution) (c : Contribution) :
    keysOf (cs ++ [c]) = if c.key ∈ keysOf cs then keysOf cs else keysOf cs ++ [c.key] := by
  simp [keysOf, eraseDups_concat]

theorem absorb_classOf (tracks : Bool) (key : List Nat) {cs : List Contribution}
    (h : cs ≠ []) (c : Contribution) :
    (classOf tracks key cs).absorb tracks c = classOf tracks key (cs ++ [c]) := by
  have hhead : (cs ++ [c]).head? = cs.head? := List.head?_append_of_ne_nil cs h
  cases tracks <;> simp [classOf, EquivalenceClass.absorb, Distribution.joint_concat, hhead]

theorem absorb_unfilled (tracks : Bool) (c : Contribution) :
    (EquivalenceClass.unfilled c.key c.representative).absorb tracks c =
      classOf tracks c.key [c] := by
  cases tracks <;> simp [classOf, EquivalenceClass.absorb, EquivalenceClass.unfilled,
    Distribution.joint]

theorem addTo_map {tracks : Bool} {c : Contribution} {keys : List (List Nat)}
    {make : List Nat → EquivalenceClass} (hkey : ∀ key, (make key).key = key)
    (hnodup : keys.Nodup) :
    addTo tracks c (keys.map make) =
      if c.key ∈ keys then
        keys.map fun key => if key = c.key then (make key).absorb tracks c else make key
      else keys.map make ++ [(EquivalenceClass.unfilled c.key c.representative).absorb tracks c] := by
  induction keys with
  | nil => simp [addTo]
  | cons key keys ih =>
    obtain ⟨hnot, hrest⟩ := List.nodup_cons.mp hnodup
    simp only [List.map_cons, addTo, hkey]
    by_cases he : key = c.key
    · subst he
      have hsame : (keys.map fun k => if k = c.key then (make k).absorb tracks c else make k) =
          keys.map make := by
        refine List.map_congr_left fun k hk => if_neg ?_
        rintro rfl
        exact hnot hk
      simp [hsame]
    · rw [if_neg he, ih hrest]
      by_cases hm : c.key ∈ keys
      · simp [hm, he]
      · simp [hm, Ne.symm he]

theorem withKey_concat (key : List Nat) (cs : List Contribution) (c : Contribution) :
    withKey key (cs ++ [c]) =
      if key = c.key then withKey key cs ++ [c] else withKey key cs := by
  by_cases h : key = c.key
  · simp [withKey, h]
  · simp [withKey, h, Ne.symm h]

theorem withKey_eq_nil {key : List Nat} {cs : List Contribution} :
    withKey key cs = [] ↔ key ∉ keysOf cs := by
  simp [withKey, mem_keysOf]

theorem ofContributions_classes (tracks : Bool) (cs : List Contribution) :
    ofContributions tracks cs =
      ⟨tracks, (keysOf cs).map fun key => classOf tracks key (withKey key cs)⟩ := by
  induction cs using List.reverseRecOn with
  | nil => rfl
  | append_singleton cs c ih =>
    have hstep : ofContributions tracks (cs ++ [c]) = (ofContributions tracks cs).add c := by
      simp [ofContributions, addAll]
    have hkey : ∀ key, (classOf tracks key (withKey key cs)).key = key := fun _ => rfl
    rw [hstep, ih, add, addTo_map hkey (nodup_keysOf cs), keysOf_concat]
    congr 1
    by_cases h : c.key ∈ keysOf cs
    · rw [if_pos h, if_pos h]
      refine List.map_congr_left fun key hkey => ?_
      rw [withKey_concat]
      by_cases he : key = c.key
      · rw [if_pos he, if_pos he]
        exact absorb_classOf tracks key (fun hn => withKey_eq_nil.mp hn hkey) c
      · rw [if_neg he, if_neg he]
    · rw [if_neg h, if_neg h, List.map_append, List.map_singleton, withKey_concat, if_pos rfl,
        withKey_eq_nil.mpr h, absorb_unfilled, List.nil_append]
      congr 1
      refine List.map_congr_left fun key hkey => ?_
      rw [withKey_concat, if_neg (by rintro rfl; exact h hkey)]

/-! ## Contributions that sum up to the same -/

/-- All distributions that contributions carry are canonical. -/
def Canonical (cs : List Contribution) : Prop :=
  Distribution.AllCanonical (cs.map (·.distribution))

/-- Contributions with the same first representative and the same sums. Distributions
matter only where they are tracked. -/
structure Alike (tracks : Bool) (cs ds : List Contribution) : Prop where
  first : cs.head?.map (·.representative) = ds.head?.map (·.representative)
  count : (cs.map (·.count)).sum = (ds.map (·.count)).sum
  total : (cs.map (·.total)).sum = (ds.map (·.total)).sum
  distributed : tracks = true →
    ((∃ d, some d ∈ cs.map (·.distribution)) ↔ ∃ d, some d ∈ ds.map (·.distribution))
  occurrences : tracks = true → ∀ v,
    ((cs.map (·.distribution)).map (Distribution.occurrences · v)).sum =
      ((ds.map (·.distribution)).map (Distribution.occurrences · v)).sum

/-- The contribution under a key that depends on its own one. -/
def rekey (g : List Nat → List Nat) (c : Contribution) : Contribution :=
  { c with key := g c.key }

theorem Canonical.mono {cs ds : List Contribution} (h : Canonical cs) (hs : ds ⊆ cs) :
    Canonical ds := fun d hd => h d (List.map_subset _ hs hd)

theorem Canonical.append {cs ds : List Contribution} (hc : Canonical cs) (hd : Canonical ds) :
    Canonical (cs ++ ds) := by
  intro d h
  rw [List.map_append, List.mem_append] at h
  exact h.elim (hc d) (hd d)

namespace Alike
variable {tracks : Bool} {bs cs ds : List Contribution}

theorem classOf_eq (h : Alike tracks cs ds) (hc : Canonical cs) (hd : Canonical ds)
    (key : List Nat) : classOf tracks key cs = classOf tracks key ds := by
  simp only [classOf, h.first, h.count, h.total]
  cases tracks with
  | false => rfl
  | true => simp only [Distribution.joint_congr hc hd (h.distributed rfl) (h.occurrences rfl)]

theorem refl (cs : List Contribution) : Alike tracks cs cs :=
  ⟨rfl, rfl, rfl, fun _ => Iff.rfl, fun _ _ => rfl⟩

theorem symm (h : Alike tracks cs ds) : Alike tracks ds cs where
  first := h.first.symm
  count := h.count.symm
  total := h.total.symm
  distributed ht := (h.distributed ht).symm
  occurrences ht v := (h.occurrences ht v).symm

theorem trans (h : Alike tracks bs cs) (k : Alike tracks cs ds) : Alike tracks bs ds where
  first := h.first.trans k.first
  count := h.count.trans k.count
  total := h.total.trans k.total
  distributed ht := (h.distributed ht).trans (k.distributed ht)
  occurrences ht v := (h.occurrences ht v).trans (k.occurrences ht v)

theorem append {es : List Contribution} (h : Alike tracks bs cs) (k : Alike tracks ds es) :
    Alike tracks (bs ++ ds) (cs ++ es) where
  first := by simp [List.head?_append, Option.map_or, h.first, k.first]
  count := by simp [h.count, k.count]
  total := by simp [h.total, k.total]
  distributed ht := by
    simp only [List.map_append, List.mem_append, exists_or, h.distributed ht, k.distributed ht]
  occurrences ht v := by
    simp only [List.map_append, List.sum_append, h.occurrences ht v, k.occurrences ht v]

theorem of_perm (h : cs.Perm ds) (hhead : cs.head? = ds.head?) : Alike tracks cs ds where
  first := by rw [hhead]
  count := (h.map _).sum_eq
  total := (h.map _).sum_eq
  distributed _ := by simp only [(h.map (·.distribution)).mem_iff]
  occurrences _ _ := ((h.map _).map _).sum_eq

theorem rekeyed (g : List Nat → List Nat) (cs : List Contribution) :
    Alike tracks (cs.map (rekey g)) cs where
  first := by cases cs <;> rfl
  count := by rw [List.map_map]; rfl
  total := by rw [List.map_map]; rfl
  distributed _ := by rw [List.map_map]; rfl
  occurrences _ _ := by simp only [List.map_map]; rfl

theorem sum_parts {parts : List (List Contribution)}
    {sum : List Contribution → Contribution}
    (h : ∀ part ∈ parts, Alike tracks [sum part] part) :
    Alike tracks (parts.map sum) parts.flatten := by
  induction parts with
  | nil => exact Alike.refl _
  | cons part parts ih =>
    have hrest := ih fun q hq => h q (List.mem_cons_of_mem _ hq)
    have hpart := h part List.mem_cons_self
    exact hpart.append hrest

theorem classOf_contribution (key new : List Nat) (hne : cs ≠ []) (hc : Canonical cs) :
    Alike tracks [(classOf tracks key cs).contribution new] cs where
  first := by
    obtain ⟨c, rest, rfl⟩ := List.exists_cons_of_ne_nil hne
    rfl
  count := by simp [EquivalenceClass.contribution, classOf]
  total := by simp [EquivalenceClass.contribution, classOf]
  distributed ht := by
    subst ht
    rw [← (Distribution.joint_spec hc).1, Option.isSome_iff_exists]
    exact exists_congr fun d => List.mem_singleton.trans eq_comm
  occurrences ht v := by
    subst ht
    rw [← (Distribution.joint_spec hc).2.2 v]
    simp [EquivalenceClass.contribution, classOf]

end Alike

/-- Groupings are equal if their keys occur in the same order and the contributions with
each key sum up to the same. -/
theorem ofContributions_congr {tracks : Bool} {cs ds : List Contribution} (hc : Canonical cs)
    (hd : Canonical ds) (hkeys : keysOf cs = keysOf ds)
    (halike : ∀ key, Alike tracks (withKey key cs) (withKey key ds)) :
    ofContributions tracks cs = ofContributions tracks ds := by
  rw [ofContributions_classes, ofContributions_classes, hkeys]
  congr 1
  refine List.map_congr_left fun key _ => ?_
  exact (halike key).classOf_eq (hc.mono (List.filter_subset_self _))
    (hd.mono (List.filter_subset_self _)) key

/-! ## Blocks of contributions -/

/-- Contributions whose keys have a property, key by key. -/
def blocks (p : List Nat → Bool) (cs : List Contribution) : List (List Contribution) :=
  ((keysOf cs).filter p).map fun key => withKey key cs

def without (key : List Nat) (cs : List Contribution) : List Contribution :=
  cs.filter fun b => !decide (b.key = key)

theorem keysOf_cons (c : Contribution) (cs : List Contribution) :
    keysOf (c :: cs) = c.key :: keysOf (without c.key cs) := by
  have hmap : (cs.map (·.key)).filter (fun key => !key == c.key) =
      (without c.key cs).map (·.key) := by
    rw [without, List.filter_map]
    congr 1
    exact List.filter_congr fun b _ => by rw [Function.comp_apply, beq_eq_decide]
  rw [keysOf, List.map_cons, List.eraseDups_cons, hmap, keysOf]

/-- The first block is that of the first contribution, if its key has the property. The others are
those of the contributions with other keys. -/
theorem blocks_cons (p : List Nat → Bool) (c : Contribution) (cs : List Contribution) :
    blocks p (c :: cs) =
      if p c.key then (c :: withKey c.key cs) :: blocks p (without c.key cs)
      else blocks p (without c.key cs) := by
  have hrest : ((keysOf (without c.key cs)).filter p).map (fun key => withKey key (c :: cs)) =
      blocks p (without c.key cs) := by
    refine List.map_congr_left fun key hkey => ?_
    obtain ⟨b, hb, rfl⟩ := mem_keysOf.mp (List.mem_of_mem_filter hkey)
    have hne : b.key ≠ c.key := by simpa using (List.mem_filter.mp hb).2
    simp only [withKey, without, List.filter_cons, List.filter_filter, decide_eq_true_eq,
      hne.symm, if_false]
    refine List.filter_congr fun a _ => ?_
    by_cases ha : a.key = b.key
    · simp [ha, hne]
    · simp [ha]
  rw [blocks, keysOf_cons]
  split_ifs with hp
  · rw [List.filter_cons_of_pos hp, List.map_cons, hrest]
    simp [withKey]
  · rw [List.filter_cons_of_neg hp, hrest]

/-- The blocks are a rearrangement that keeps the first contribution in front. -/
theorem blocks_flatten (p : List Nat → Bool) (cs : List Contribution) :
    (blocks p cs).flatten.Perm (cs.filter (p ·.key)) ∧
      (blocks p cs).flatten.head? = (cs.filter (p ·.key)).head? := by
  induction hn : cs.length using Nat.strong_induction_on generalizing cs with
  | _ n ih =>
    cases cs with
    | nil => simp [blocks, keysOf]
    | cons c cs =>
      have hlength : (without c.key cs).length < n := by
        have hle : (without c.key cs).length ≤ cs.length := List.length_filter_le _ cs
        simp only [List.length_cons] at hn
        omega
      obtain ⟨hperm, hhead⟩ := ih _ hlength (without c.key cs) rfl
      rw [blocks_cons]
      by_cases hp : p c.key
      · rw [if_pos hp, List.filter_cons_of_pos (by simpa using hp)]
        refine ⟨?_, rfl⟩
        rw [List.flatten_cons, List.cons_append]
        refine List.Perm.cons c ?_
        have hsplit : withKey c.key cs =
            (cs.filter (p ·.key)).filter fun b => decide (b.key = c.key) := by
          rw [withKey, List.filter_filter]
          refine List.filter_congr fun a _ => ?_
          by_cases ha : a.key = c.key <;> simp [ha, hp]
        have hothers : (without c.key cs).filter (p ·.key) =
            (cs.filter (p ·.key)).filter fun b => !decide (b.key = c.key) := by
          simp only [without, List.filter_filter, Bool.and_comm]
        calc (withKey c.key cs ++ (blocks p (without c.key cs)).flatten).Perm _ :=
              hperm.append_left _
          _ = (cs.filter (p ·.key)).filter (fun b => decide (b.key = c.key)) ++
                (cs.filter (p ·.key)).filter (fun b => !decide (b.key = c.key)) := by
              rw [hsplit, hothers]
          _ |>.Perm (cs.filter (p ·.key)) := List.filter_append_perm _ _
      · have hothers : (without c.key cs).filter (p ·.key) = (c :: cs).filter (p ·.key) := by
          rw [List.filter_cons_of_neg (by simpa using hp), without, List.filter_filter]
          refine List.filter_congr fun a _ => ?_
          by_cases ha : a.key = c.key <;> simp [ha, hp]
        rw [if_neg hp, ← hothers]
        exact ⟨hperm, hhead⟩

theorem sum_withKey (f : Contribution → Nat) (cs : List Contribution) :
    ((keysOf cs).map fun key => ((withKey key cs).map f).sum).sum = (cs.map f).sum := by
  have hperm : ((keysOf cs).map fun key => withKey key cs).flatten.Perm cs := by
    simpa [blocks] using (blocks_flatten (fun _ => true) cs).1
  rw [← (hperm.map f).sum_eq, List.map_flatten, List.sum_flatten, List.map_map, List.map_map]
  rfl

theorem size_ofContributions (tracks : Bool) (cs : List Contribution) :
    (ofContributions tracks cs).size = (keysOf cs).length := by
  rw [ofContributions_classes, size, List.length_map]

theorem totalCount_ofContributions (tracks : Bool) (cs : List Contribution) :
    (ofContributions tracks cs).totalCount = (cs.map (·.count)).sum := by
  rw [ofContributions_classes, totalCount, List.map_map]
  exact sum_withKey (·.count) cs

theorem totalRecords_ofContributions (tracks : Bool) (cs : List Contribution) :
    (ofContributions tracks cs).totalRecords = (cs.map (·.total)).sum := by
  rw [ofContributions_classes, totalRecords, List.map_map]
  exact sum_withKey (·.total) cs

theorem canonical_rekey {cs : List Contribution} (hc : Canonical cs)
    (g : List Nat → List Nat) : Canonical (cs.map (rekey g)) := by
  intro d hd
  rw [List.map_map] at hd
  exact hc d hd

def regrouped (g : List Nat → List Nat) (classes : List EquivalenceClass) :
    List Contribution := classes.map fun e => e.contribution (g e.key)

theorem regrouped_ofContributions (tracks : Bool) (g : List Nat → List Nat)
    (cs : List Contribution) : regrouped g (ofContributions tracks cs).classes =
      (keysOf cs).map fun key => (classOf tracks key (withKey key cs)).contribution (g key) := by
  rw [ofContributions_classes, regrouped, List.map_map]
  rfl

theorem canonical_regrouped {cs : List Contribution} (hc : Canonical cs) (tracks : Bool)
    (g : List Nat → List Nat) :
    Canonical (regrouped g (ofContributions tracks cs).classes) := by
  intro d hd
  rw [regrouped_ofContributions, List.map_map, List.mem_map] at hd
  obtain ⟨key, -, hkey⟩ := hd
  have hjoint : some d = if tracks then
      Distribution.joint ((withKey key cs).map (·.distribution)) else none := hkey.symm
  cases tracks with
  | false => cases hjoint
  | true =>
    have hspec := Distribution.joint_spec (hc.mono (List.filter_subset_self _) :
      Canonical (withKey key cs))
    exact hspec.2.1 d hjoint.symm

theorem keysOf_regrouped (tracks : Bool) (g : List Nat → List Nat)
    (before cs : List Contribution) :
    keysOf (before ++ regrouped g (ofContributions tracks cs).classes) =
      keysOf (before ++ cs.map (rekey g)) := by
  have hfine : (regrouped g (ofContributions tracks cs).classes).map (·.key) =
      (cs.map (·.key)).eraseDups.map g := by
    rw [regrouped_ofContributions, List.map_map]
    rfl
  have hcoarse : (cs.map (rekey g)).map (·.key) = (cs.map (·.key)).map g := by
    rw [List.map_map, List.map_map]
    rfl
  simp only [keysOf, List.map_append, hfine, hcoarse]
  exact eraseDups_append_map g _ _

theorem alike_regrouped {cs : List Contribution} (hc : Canonical cs) (tracks : Bool)
    (g : List Nat → List Nat) (key : List Nat) :
    Alike tracks (withKey key (regrouped g (ofContributions tracks cs).classes))
      (withKey key (cs.map (rekey g))) := by
  let p : List Nat → Bool := fun own => g own = key
  let sum (part : List Contribution) : Contribution :=
    (classOf tracks ((part.head?.map (·.key)).getD []) part).contribution key
  have hleft : withKey key (regrouped g (ofContributions tracks cs).classes) =
      (blocks p cs).map sum := by
    rw [regrouped_ofContributions, withKey, List.filter_map, blocks, List.map_map]
    refine List.map_congr_left fun own hown => ?_
    obtain ⟨hmem, hp⟩ := List.mem_filter.mp hown
    have hg : g own = key := by simpa [EquivalenceClass.contribution] using hp
    simp only [Function.comp_apply, sum, hg]
    rfl
  have hright : withKey key (cs.map (rekey g)) = (cs.filter (p ·.key)).map (rekey g) := by
    rw [withKey, List.filter_map]
    rfl
  have hblocks : ∀ part ∈ blocks p cs, part ≠ [] ∧ part ⊆ cs := by
    intro part hpart
    obtain ⟨own, hown, rfl⟩ := List.mem_map.mp hpart
    refine ⟨fun hnil => withKey_eq_nil.mp hnil (List.mem_of_mem_filter hown), ?_⟩
    exact List.filter_subset_self _
  have hsums : Alike tracks ((blocks p cs).map sum) (blocks p cs).flatten :=
    Alike.sum_parts fun part hpart => Alike.classOf_contribution _ key (hblocks part hpart).1
      (hc.mono (hblocks part hpart).2)
  have hflatten := blocks_flatten p cs
  rw [hleft, hright]
  refine hsums.trans ((Alike.of_perm hflatten.1 hflatten.2).trans ?_)
  exact (Alike.rekeyed g _).symm

/-- Grouping classes again under keys that depend on their own keys gives the same as
grouping what was added to them. -/
theorem ofContributions_regrouped {before cs : List Contribution} (hb : Canonical before)
    (hc : Canonical cs) (tracks : Bool) (g : List Nat → List Nat) :
    ofContributions tracks (before ++ regrouped g (ofContributions tracks cs).classes) =
      ofContributions tracks (before ++ cs.map (rekey g)) := by
  refine ofContributions_congr (hb.append (canonical_regrouped hc tracks g))
    (hb.append (canonical_rekey hc g)) (keysOf_regrouped tracks g before cs) fun key => ?_
  have hsplit : ∀ ds, withKey key (before ++ ds) = withKey key before ++ withKey key ds :=
    fun ds => List.filter_append _ _
  rw [hsplit, hsplit]
  exact (Alike.refl _).append (alike_regrouped hc tracks g key)

end Grouping
end Recoding
