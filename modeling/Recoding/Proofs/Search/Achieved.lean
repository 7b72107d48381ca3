import Recoding.Proofs.Search.Runs

/-!
# What the parts of a search achieve

As long as its numbers of distributions fit, no part of a best-first search fails. Each part is
described here by the state and the queue that it leaves behind.
-/

namespace Recoding

namespace Exploration

/-- The numbers of distributions that snapshots refer to fit into words. -/
def Fits (x : Exploration) : Prop := x.checker.history.dictionary.size < 2 ^ 32

theorem fits_of_extends {x y : Exploration}
    (h : x.checker.history.dictionary.Extends y.checker.history.dictionary) (hy : y.Fits) :
    x.Fits :=
  lt_of_le_of_lt h.size_le hy

/-- A part of a search that succeeds from a state, if everything fits in the end. -/
def Yields {α : Type} (m : Exploring α) (x : Exploration) (post : α → Exploration → Prop) :
    Prop :=
  (run m x).2.Fits → ∃ a y, run m x = (.ok a, y) ∧ post a y

theorem stable_fits (x : Exploration) : Stable fun y => y.Fits → x.Fits where
  visited _ := keeps_onSpace fun _ _ h _ => h
  mark _ _ _ := keeps_onSpace fun _ _ h _ => h
  bound _ _ := keeps_onSpace fun _ _ h _ => h
  count _ _ h := h
  assureChecked id := keeps_check
    (fun y h hfits => h (fits_of_extends
      (y.checker.agrees_check y.space id false y.progress.objective).2 hfits)) fun _ _ h => h
  track _ _ h := h
  source _ _ h := h
  finish _ _ h := h

theorem fits_of_ended {s : Search} {clock : Nat → Nat} {checker : Checker}
    {space : SolutionSpace} (h : (s.ended clock checker space).Fits) :
    checker.history.dictionary.size < 2 ^ 32 := by
  have hbegun := s.keeps_ended (stable_fits (s.begun checker space)) clock id h
  have hsame : (s.begun checker space).checker.history.dictionary =
      checker.history.dictionary := by
    unfold Search.begun
    cases s.plan <;> rfl
  rwa [Fits, hsame] at hbegun

section
variable {α β : Type} {m : Exploring α} {f : α → Exploring β} {x : Exploration}

theorem Yields.bind {post : α → Exploration → Prop} {last : β → Exploration → Prop}
    (hm : Yields m x post) (hgrows : ∀ a (y : Exploration), Keeps (fun z => z.Fits → y.Fits) (f a))
    (hf : ∀ a y, post a y → Yields (f a) y last) : Yields (m >>= f) x last := by
  intro hfits
  rw [run_bind] at hfits ⊢
  rcases hrun : run m x with ⟨failure | a, y⟩ <;> rw [hrun] at hfits
  · obtain ⟨a, z, hok, -⟩ := hm (by rw [hrun]; exact hfits)
    rw [hrun] at hok
    cases hok
  · have hy : y.Fits := hgrows a y y id hfits
    obtain ⟨b, z, hok, hpost⟩ := hm (by rw [hrun]; exact hy)
    rw [hrun] at hok
    cases hok
    exact hf a y hpost hfits

theorem Yields.of_run_eq {m' : Exploring α} {y : Exploration} {post : α → Exploration → Prop}
    (h : run m' y = run m x) (hm : Yields m x post) : Yields m' y post := by
  unfold Yields
  rw [h]
  exact hm

theorem yields_of_run {a : α} {y : Exploration} {post : α → Exploration → Prop}
    (h : run m x = (.ok a, y)) (hpost : post a y) : Yields m x post := fun _ => ⟨a, y, h, hpost⟩

end

theorem run_onSpace {f : SolutionSpace → Except Failure SolutionSpace} {x : Exploration}
    {space : SolutionSpace} (h : f x.space = .ok space) :
    run (onSpace f) x = (.ok (), { x with space }) := by
  rw [run_onSpace_eq, h]

theorem run_bind_of_ok {α β : Type} {m : Exploring α} {f : α → Exploring β} {x y : Exploration}
    {a : α} (h : run m x = (.ok a, y)) : run (m >>= f) x = run (f a) y := by
  rw [run_bind, h]

end Exploration

open Exploration

namespace BestFirst

/-! ## The queue -/

/-- The order of visits, in which the identifiers do not matter. -/
def Entry.Before (a b : Entry) : Prop :=
  Binary64.orderKey a.bound < Binary64.orderKey b.bound ∨
    Binary64.orderKey a.bound = Binary64.orderKey b.bound ∧ a.level ≤ b.level

theorem Entry.Before.trans {a b c : Entry} (h : a.Before b) (k : b.Before c) : a.Before c := by
  unfold Before at *
  omega

theorem Entry.before_of_compare {a b : Entry} :
    (a.compare b = .lt → a.Before b) ∧ (a.compare b ≠ .lt → b.Before a) := by
  unfold Entry.compare Entry.Before Binary64.totalCompare
  simp only [Ordering.then_eq_lt, compare_lt_iff_lt, compare_eq_iff_eq, ne_eq]
  constructor <;> intro h <;> omega

def Sorted (queue : List Entry) : Prop := queue.Pairwise Entry.Before

theorem perm_insert (e : Entry) (queue : List Entry) : (e.insert queue).Perm (e :: queue) := by
  induction queue with
  | nil => exact List.Perm.refl _
  | cons first rest ih =>
    unfold Entry.insert
    split_ifs
    · exact List.Perm.refl _
    · exact (ih.cons first).trans (List.Perm.swap e first rest)

def Waiting (l : Lattice) (queue : List Entry) : Prop := ∀ e ∈ queue, e.id < l.size

theorem Waiting.insert {l : Lattice} {queue : List Entry} (hq : Waiting l queue) {e : Entry}
    (he : e.id < l.size) : Waiting l (e.insert queue) := by
  intro other hother
  rcases List.mem_cons.mp ((perm_insert e queue).mem_iff.mp hother) with rfl | hold
  · exact he
  · exact hq other hold

theorem Sorted.insert {queue : List Entry} (h : Sorted queue) (e : Entry) :
    Sorted (e.insert queue) := by
  induction queue with
  | nil => exact List.pairwise_singleton _ _
  | cons first rest ih =>
    obtain ⟨hfirst, hrest⟩ := List.pairwise_cons.mp h
    unfold Entry.insert
    split_ifs with hcompare
    · have hbefore : e.Before first := Entry.before_of_compare.1 (by simpa using hcompare)
      refine List.pairwise_cons.mpr ⟨fun other hother => ?_, h⟩
      rcases List.mem_cons.mp hother with rfl | hother
      · exact hbefore
      · exact hbefore.trans (hfirst other hother)
    · have hbefore : first.Before e := Entry.before_of_compare.2 (by simpa using hcompare)
      refine List.pairwise_cons.mpr ⟨fun other hother => ?_, ih hrest⟩
      rcases List.mem_cons.mp ((perm_insert e rest).mem_iff.mp hother) with rfl | hother
      · exact hbefore
      · exact hfirst other hother

end BestFirst

/-- A checker that can check all transformations of a lattice. -/
structure Checker.Serves (c : Checker) (l : Lattice) : Prop where
  faithful : c.Faithful
  ready : c.Ready
  covers : c.dataset.Covers l

theorem Checker.Serves.precedes {a b : Checker} {l : Lattice} (h : a.Serves l)
    (k : a.Precedes b) (hb : b.history.dictionary.size < 2 ^ 32) : b.Serves l :=
  ⟨k.faithful hb h.faithful, h.ready.agrees k.agrees, k.agrees.dataset ▸ h.covers⟩

def Checker.entry (c : Checker) (l : Lattice) (id : Nat) : BestFirst.Entry :=
  ⟨c.boundAt (l.levelsAt id), levelSum (l.levelsAt id), id⟩

namespace BestFirst

/-- What has been queued of some transformations: those that no search had reached. -/
structure Queued (c : Checker) (s after : SolutionSpace) (ids new : List Nat)
    (queue last : List Entry) : Prop where
  follows : s.Follows after new
  subset : ∀ id ∈ new, id ∈ ids
  nodup : new.Nodup
  fresh : ∀ id ∈ new, s.marked id Mark.visited = false
  complete : ∀ id ∈ ids, s.marked id Mark.visited = true ∨ id ∈ new
  perm : last.Perm (new.map (c.entry s.lattice) ++ queue)
  sorted : Sorted queue → Sorted last

namespace Queued
variable {c : Checker} {s after : SolutionSpace} {id : Nat} {ids new : List Nat}
  {queue last : List Entry}

theorem nil (hs : s.Indexed) : Queued c s s [] [] queue queue where
  follows := SolutionSpace.Follows.refl hs
  subset := by simp
  nodup := List.nodup_nil
  fresh := by simp
  complete := by simp
  perm := List.Perm.refl _
  sorted h := h

theorem skip (h : Queued c s after ids new queue last) (hid : s.marked id Mark.visited = true) :
    Queued c s after (id :: ids) new queue last where
  follows := h.follows
  subset other hother := List.mem_cons_of_mem _ (h.subset other hother)
  nodup := h.nodup
  fresh := h.fresh
  complete := List.forall_mem_cons.mpr ⟨Or.inl hid, h.complete⟩
  perm := h.perm
  sorted := h.sorted

/-- A transformation that has not been reached comes first of what is queued. -/
theorem cons {first : SolutionSpace} (hs : s.Follows first [id])
    (h : Queued c first after ids new ((c.entry s.lattice id).insert queue) last)
    (hid : s.marked id Mark.visited = false) :
    Queued c s after (id :: ids) (id :: new) queue last := by
  have hfresh : ∀ other ∈ new, s.marked other Mark.visited = false ∧ other ≠ id := by
    intro other hother
    have hnot := h.fresh other hother
    rw [← Bool.not_eq_true, hs.visited] at hnot
    simpa using hnot
  exact {
    follows := hs.trans h.follows
    subset := List.forall_mem_cons.mpr
      ⟨List.mem_cons_self, fun other hother => List.mem_cons_of_mem _ (h.subset other hother)⟩
    nodup := List.nodup_cons.mpr ⟨fun hmem => (hfresh id hmem).2 rfl, h.nodup⟩
    fresh := List.forall_mem_cons.mpr ⟨hid, fun other hother => (hfresh other hother).1⟩
    complete := by
      refine List.forall_mem_cons.mpr ⟨Or.inr List.mem_cons_self, fun other hother => ?_⟩
      rcases h.complete other hother with hvisited | hnew
      · exact ((hs.visited other).mp hvisited).imp_right fun hother =>
          List.mem_cons.mpr (Or.inl (List.mem_singleton.mp hother))
      · exact Or.inr (List.mem_cons_of_mem _ hnew)
    perm := by
      refine h.perm.trans ?_
      rw [hs.lattice, List.map_cons, List.cons_append]
      exact ((perm_insert _ queue).append_left _).trans List.perm_middle
    sorted := fun hsorted => h.sorted (hsorted.insert _) }

end Queued

theorem run_liftExcept {α : Type} (a : α) (x : Exploration) :
    run (enqueue.liftExcept (.ok a)) x = (.ok a, x) := rfl

section
variable {c : Checker} {l : Lattice} (hc : c.Serves l) {x : Exploration}
  (ha : x.checker.Agrees c) (hl : x.space.lattice = l) (hi : x.space.Indexed)
include hc ha hl hi

theorem run_enqueue {id : Nat} (hid : id < l.size) (queue : List Entry) :
    ∃ space, run (enqueue id queue) x = (.ok ((c.entry l id).insert queue), { x with space }) ∧
      x.space.Follows space [id] := by
  subst hl
  have hlevels := Lattice.levelsOf_levelsAt hid
  obtain ⟨visited, hvisited, hfollows⟩ := SolutionSpace.mark_visited_ok hi hlevels
  have hlevels' : visited.lattice.levelsOf id = .ok (x.space.lattice.levelsAt id) := by
    rw [hfollows.lattice]
    exact hlevels
  obtain ⟨bound, hbound⟩ := Checker.lowerBound_ok (hc.covers.admits hlevels) hc.ready
  have hbound' : x.checker.metric.lowerBound (x.space.lattice.levelsAt id) =
      .ok (some bound) := by rw [ha.metric, hbound]
  obtain ⟨bounded, hbounded, hfollows'⟩ :=
    SolutionSpace.bound_ok hfollows.indexed hlevels' bound
  have hentry : c.entry x.space.lattice id =
      ⟨bound.value, levelSum (x.space.lattice.levelsAt id), id⟩ := by
    rw [Checker.entry, Checker.boundAt, hbound]
  refine ⟨bounded, ?_, hfollows.trans hfollows'⟩
  rw [enqueue, run_bind_of_ok (run_onSpace hvisited), run_get_bind]
  dsimp only
  rw [hlevels', run_bind_of_ok (run_liftExcept _ _), hbound', run_bind_of_ok (run_liftExcept _ _),
    hentry]
  exact run_bind_of_ok (run_onSpace hbounded)

theorem run_enqueueNew {ids : List Nat} (hids : ∀ id ∈ ids, id < l.size)
    (queue : List Entry) : ∃ new space last,
      run (enqueueNew ids queue) x = (.ok last, { x with space }) ∧
        Queued c x.space space ids new queue last := by
  induction ids generalizing x queue with
  | nil => exact ⟨[], x.space, queue, rfl, Queued.nil hi⟩
  | cons id rest ih =>
    have hrest : ∀ other ∈ rest, other < l.size := fun _ h => hids _ (List.mem_cons_of_mem _ h)
    rw [enqueueNew, run_get_bind, SolutionSpace.has_visited]
    cases hvisited : x.space.marked id Mark.visited with
    | true =>
      obtain ⟨new, space, last, hrun, hq⟩ := ih ha hl hi hrest queue
      exact ⟨new, space, last, by rw [if_pos rfl, hrun], hq.skip hvisited⟩
    | false =>
      obtain ⟨first, hrun, hfollows⟩ := run_enqueue hc ha hl hi (hids id List.mem_cons_self) queue
      obtain ⟨new, space, last, hrun', hq⟩ := ih (x := { x with space := first }) ha
        (hfollows.lattice.trans hl) hfollows.indexed hrest ((c.entry l id).insert queue)
      rw [← hl] at hrun hrun' hq
      refine ⟨id :: new, space, last, ?_, Queued.cons hfollows hq hvisited⟩
      rw [if_neg (by simp), run_bind_of_ok hrun, hrun']

/-- Continuing above a transformation queues the successors that no search had reached. -/
theorem run_expand {id : Nat} (hid : id < l.size) (queue : List Entry) :
    ∃ ids new space last, run (expand id queue) x = (.ok last, { x with space }) ∧
      (∀ next, next ∈ ids ↔ l.Step id next) ∧ Queued c x.space space ids new queue last := by
  subst hl
  obtain ⟨expanded, hexpanded, hfollows⟩ :=
    SolutionSpace.mark_ok hi (Lattice.levelsOf_levelsAt hid) (Or.inl rfl)
  obtain ⟨ids, hids, hstep⟩ := Lattice.exists_successors hid
  obtain ⟨new, space, last, hrun, hq⟩ := run_enqueueNew (x := { x with space := expanded }) hc ha
    hfollows.lattice hfollows.indexed (fun next h => ((hstep next).mp h).right) queue
  have hvisited : ∀ other, expanded.marked other Mark.visited =
      x.space.marked other Mark.visited := by
    intro other
    rw [Bool.eq_iff_iff, hfollows.visited]
    simp
  refine ⟨ids, new, space, last, ?_, hstep, hfollows.trans hq.follows, hq.subset, hq.nodup, ?_,
    ?_, ?_, hq.sorted⟩
  · rw [expand, run_bind_of_ok (run_onSpace hexpanded), run_get_bind]
    dsimp only
    rw [hfollows.lattice, hids]
    exact hrun
  · intro other hother
    rw [← hvisited]
    exact hq.fresh other hother
  · intro other hother
    rw [← hvisited]
    exact hq.complete other hother
  · have hperm := hq.perm
    dsimp only at hperm
    rwa [hfollows.lattice] at hperm

omit hc ha in
theorem run_prune {id : Nat} (hid : id < l.size) (queue : List Entry) :
    ∃ space, run (prune id queue) x = (.ok queue, { x with space }) ∧
      x.space.Follows space [] := by
  subst hl
  obtain ⟨pruned, hpruned, hfollows⟩ :=
    SolutionSpace.mark_ok hi (Lattice.levelsOf_levelsAt hid) (Or.inr rfl)
  exact ⟨pruned, run_bind_of_ok (run_onSpace hpruned), hfollows⟩

end

end BestFirst

namespace Exploration

/-- What a state keeps while a transformation is checked for its loss. -/
structure Checked (c : Checker) (x y : Exploration) (id : Nat) : Prop where
  precedes : x.checker.Precedes y.checker
  truthful : y.space.Truthful c
  learns : x.space.Learns y.space c id
  progress : y.progress = { x.progress with checks := y.progress.checks }

theorem yields_assureChecked {c : Checker} {l : Lattice} (hc : c.Serves l) {x : Exploration}
    (hp : c.Precedes x.checker) (hl : x.space.lattice = l) (ht : x.space.Truthful c)
    (ho : x.progress.objective = .loss) {id : Nat} (hid : id < l.size) :
    Yields (assureChecked id) x fun _ y => Checked c x y id := by
  intro hfits
  have hx : x.Fits := (stable_fits x).assureChecked id x (fun h => h) hfits
  have hserves := hc.precedes hp hx
  have hcovers : x.checker.dataset.Covers x.space.lattice := hl ▸ hserves.covers
  rw [run_assureChecked] at hfits ⊢
  split_ifs at hfits ⊢ with hsettled
  · have hchecked : x.space.marked id Mark.checked = true := by
      rw [Progress.isSettled, Bool.and_eq_true, SolutionSpace.has_checked] at hsettled
      exact hsettled.1
    exact ⟨(), x, rfl, Checker.Precedes.refl _, ht,
      .of_follows (SolutionSpace.Follows.refl ht.indexed) hchecked c, rfl⟩
  · have hagrees := hp.agrees
    have hlevels : x.space.lattice.levelsOf id = .ok (x.space.lattice.levelsAt id) :=
      Lattice.levelsOf_levelsAt (hl ▸ hid)
    have hprecedes := Checker.precedes_check hcovers id false x.progress.objective
    obtain ⟨e, g, hscan⟩ := Checker.fullScan_ok (hcovers.admits hlevels)
      hserves.faithful.wellFormed hserves.ready
    rcases (ht.agrees hagrees).check hserves.faithful hcovers id false x.progress.objective with
      ⟨failure, after, hcheck⟩ | ⟨e, after, learned, hcheck, hlearned, hlearns⟩
    · obtain ⟨_, _, hok, -⟩ := hserves.faithful.check_ok hcovers hlevels hscan false
      rw [← ho, hcheck] at hok
      cases hok
    · rw [hcheck] at hprecedes ⊢
      exact ⟨(), _, rfl, hprecedes, hlearned.agrees hagrees.symm,
        hlearns.agrees hagrees.symm, rfl⟩

end Exploration
end Recoding
