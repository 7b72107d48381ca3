import Recoding.Proofs.Search.Frontier

/-!
# Best-first search is exhaustive

A visit drops a transformation only if the optimum is preferred to everything above it, and
passes it without a check only if it need not become the optimum. So a search without limits ends
with an optimum that is preferred to everything anonymous that is open.
-/

namespace Recoding

open Exploration

namespace Progress

theorem isBetter_iff {candidate current : Node} {a b : Loss} (ha : candidate.loss = some a)
    (hb : current.loss = some b) : isBetter .loss candidate current = true ↔
      Binary64.orderKey a.value < Binary64.orderKey b.value ∨
        Binary64.orderKey a.value = Binary64.orderKey b.value ∧
          candidate.level < current.level := by
  rw [isBetter, compareBy, ha, hb, beq_iff_eq, Ordering.then_eq_gt]
  dsimp only [Loss.compare, Binary64.totalCompare]
  rw [compare_gt_iff_gt, compare_gt_iff_gt, compare_eq_iff_eq, eq_comm]

end Progress

theorem SolutionSpace.Truthful.checked_node {s : SolutionSpace} {c : Checker} (h : s.Truthful c)
    {id : Nat} (hid : s.marked id Mark.checked = true) : ∃ node loss, s.node? id = some node ∧
      node.level = levelSum (s.lattice.levelsAt id) ∧ node.loss = some loss ∧
        loss.value = c.lossAt (s.lattice.levelsAt id) := by
  obtain ⟨loss, hloss, hvalue⟩ := h.loss id hid
  obtain ⟨node, hnode, hloss⟩ := Option.bind_eq_some_iff.mp hloss
  refine ⟨node, loss, hnode, ?_, hloss, hvalue⟩
  rw [Node.level, (Lattice.levelsOf_ok (h.indexed id node hnode)).2]
  rfl

/-- Comparing a checked transformation with the optimum leaves the one that ranks first. -/
theorem Progress.track_checked {p : Progress} {s : SolutionSpace} {c : Checker}
    (ht : s.Truthful c) (ho : p.objective = .loss) {v : Nat}
    (hv : s.marked v Mark.checked = true)
    (hoptimum : ∀ o ∈ p.optimum, s.marked o Mark.checked = true) :
    (p.track s v = p ∧ (s.has v Mark.anonymous = true →
      ∃ o ∈ p.optimum, s.lattice.Ranked c.lossAt o v)) ∨
    (p.track s v = { p with optimum := some v } ∧ s.has v Mark.anonymous = true ∧
      ∀ o ∈ p.optimum, s.lattice.Ranked c.lossAt v o) := by
  obtain ⟨candidate, a, hcandidate, hlevel, ha, hvalue⟩ := ht.checked_node hv
  have hchecked : s.has v Mark.checked = true := by rw [SolutionSpace.has_checked, hv]
  have hnodes : ∀ o ∈ p.optimum, ∃ current, s.node? o = some current := by
    intro o hbest
    obtain ⟨current, -, hcurrent, -⟩ := ht.checked_node (hoptimum o hbest)
    exact ⟨current, hcurrent⟩
  have hiff : ∀ o ∈ p.optimum, ∀ current, s.node? o = some current →
      (isBetter p.objective candidate current = true ↔
        Binary64.orderKey (c.lossAt (s.lattice.levelsAt v)) <
            Binary64.orderKey (c.lossAt (s.lattice.levelsAt o)) ∨
          Binary64.orderKey (c.lossAt (s.lattice.levelsAt v)) =
              Binary64.orderKey (c.lossAt (s.lattice.levelsAt o)) ∧
            levelSum (s.lattice.levelsAt v) < levelSum (s.lattice.levelsAt o)) := by
    intro o hbest current hcurrent
    obtain ⟨node, b, hnode, hlevel', hb, hvalue'⟩ := ht.checked_node (hoptimum o hbest)
    obtain rfl : current = node := Option.some.inj (hcurrent.symm.trans hnode)
    rw [ho, isBetter_iff ha hb, hvalue, hvalue', hlevel, hlevel']
  rcases track_node hcandidate hchecked hnodes with
    ⟨hkept, hbest⟩ | ⟨hnew, hanonymous, hbest⟩
  · refine Or.inl ⟨hkept, fun hanonymous => ?_⟩
    obtain ⟨o, hoptimum, current, hcurrent, hworse⟩ := hbest hanonymous
    have hnot := mt (hiff o hoptimum current hcurrent).mpr (by simp [hworse])
    refine ⟨o, hoptimum, ?_⟩
    unfold Lattice.Ranked
    omega
  · refine Or.inr ⟨hnew, hanonymous, fun o hoptimum => ?_⟩
    obtain ⟨current, hcurrent⟩ := hnodes o hoptimum
    have hbetter := (hiff o hoptimum current hcurrent).mp (hbest o hoptimum current hcurrent)
    unfold Lattice.Ranked
    omega

namespace BestFirst

section
variable {c : Checker} {s : SolutionSpace} {prefers before : Nat → Nat → Prop}
  (hg : Guide c s.lattice prefers before) {x : Exploration} {done : List Nat}
  {queue : List Entry} {e : Entry}
  (h : Underway c s prefers before (fun _ => False) x done (e :: queue))
include h

theorem Underway.lt_size : e.id < s.lattice.size :=
  (h.candidates e.id (by simp)).lt_size

theorem Underway.not_done : e.id ∉ done := by
  have hnodup := (List.nodup_append'.mp h.nodup).2.2
  exact fun hd => hnodup hd (by simp)

theorem Underway.optimumLoss_any {p : Float → Bool} :
    (optimumLoss? x).any p = true ↔
      ∃ o ∈ x.progress.optimum, p (c.lossAt (s.lattice.levelsAt o)) = true := by
  unfold optimumLoss?
  cases hbest : x.progress.optimum with
  | none => simp
  | some o =>
    obtain ⟨-, -, hchecked, -⟩ := h.optimum o hbest
    obtain ⟨node, loss, hnode, -, hloss, hvalue⟩ := h.truthful.checked_node hchecked
    rw [h.lattice] at hvalue
    simp [hnode, hloss, hvalue]

include hg

theorem Underway.prefers_of_bound (hb : (optimumLoss? x).any (· ≤ e.bound) = true) :
    ∃ o ∈ x.progress.optimum, prefers o e.id := by
  obtain ⟨o, ho, hle⟩ := h.optimumLoss_any.mp hb
  have hbefore := h.ahead o (h.optimum o ho).1 e List.mem_cons_self
  refine ⟨o, ho, hg.bounded o e.id hbefore ?_⟩
  rw [h.entries e List.mem_cons_self] at hle
  exact of_decide_eq_true hle

theorem Underway.prefers_of_predicted (hm : c.metric.isMonotone = true)
    (hopen : s.Open c.metric.isMonotone e.id)
    (hunchecked : x.space.has e.id Mark.checked = false)
    (hanonymous : x.space.has e.id Mark.anonymous = true) :
    ∃ o ∈ x.progress.optimum, prefers o e.id := by
  rw [SolutionSpace.has_checked] at hunchecked
  rw [SolutionSpace.has_eq, h.truthful.anonymous, hunchecked, Bool.false_and, Bool.false_or,
    Bool.and_eq_true, SolutionSpace.predicts_anonymous, h.lattice] at hanonymous
  obtain ⟨hpredictable, hlt, root, hroot, hle⟩ := hanonymous
  rcases h.roots root hroot with hstart | ⟨d, hd, hown, hd', rfl⟩
  · refine absurd ⟨hm, ?_, ?_⟩ hopen.free
    · cases hchecked : s.marked e.id Mark.checked with
      | false => rfl
      | true =>
        rw [h.persists e.id hchecked] at hunchecked
        cases hunchecked
    · have hpredicts : s.predicts e.id Mark.anonymous = true :=
        SolutionSpace.predicts_anonymous.mpr ⟨hlt, root, hstart, hle⟩
      rw [SolutionSpace.has_eq, ← h.predictable, hpredictable, hpredicts]
      simp
  · obtain ⟨o, ho, hprefers⟩ := h.best d hd hown hd'
    have hle := (Lattice.levelsLe_within (Lattice.decode_within s.lattice.axes d)
      (Lattice.decode_within s.lattice.axes e.id)).mp hle
    have hd := (h.candidates d (List.mem_append_left _ hd)).lt_size
    exact ⟨o, ho, hg.trans _ _ _ hprefers (hg.climbs_le hm hd hlt hle)⟩

omit hg in
theorem Underway.isOpen (hs : s.Truthful c)
    (hv : verdict c.metric.isMonotone x e ≠ .drop) : s.Open c.metric.isMonotone e.id := by
  refine (h.candidates e.id (by simp)).isOpen fun ⟨hm, hunchecked, hanonymous⟩ => hv ?_
  have hunchecked' : x.space.has e.id Mark.checked = false := by
    rw [SolutionSpace.has_checked, Bool.eq_false_iff]
    intro hchecked
    rcases h.checked e.id hchecked with hstart | hd
    · rw [hstart] at hunchecked
      cases hunchecked
    · exact h.not_done hd
  have hanonymous' : x.space.has e.id Mark.anonymous = true := by
    rw [SolutionSpace.has_eq, hs.anonymous, hunchecked, Bool.false_and, Bool.false_or,
      Bool.and_eq_true] at hanonymous
    rw [SolutionSpace.has_eq, h.predictable, hanonymous.1, h.predicts e.id hanonymous.2]
    simp
  simp [verdict, hm, hunchecked', hanonymous']

end

/-! ## Visits -/

theorem verdict_drop {monotone : Bool} {x : Exploration} {e : Entry}
    (h : verdict monotone x e = .drop) : monotone = true ∧
      ((optimumLoss? x).any (· ≤ e.bound) = true ∨
        x.space.has e.id Mark.checked = false ∧ x.space.has e.id Mark.anonymous = true) := by
  simp only [verdict] at h
  split_ifs at h with hout hm
  · refine ⟨hm, ?_⟩
    simp only [Bool.or_eq_true, Bool.and_eq_true, Bool.not_eq_true'] at hout
    exact hout.imp_right fun hout => hout.1

theorem verdict_pass {monotone : Bool} {x : Exploration} {e : Entry}
    (h : verdict monotone x e = .pass) : (optimumLoss? x).any (· ≤ e.bound) = true ∨
      x.space.has e.id Mark.notAnonymous = true := by
  simp only [verdict] at h
  split_ifs at h with hout hm hnot
  · simp only [Bool.or_eq_true, Bool.and_eq_true] at hout
    exact Or.inl (hout.resolve_right fun hout => hm hout.2)
  · exact Or.inr (Bool.and_eq_true _ _ ▸ hnot).2

section
variable {c : Checker} {s : SolutionSpace} {prefers before : Nat → Nat → Prop}
  (hc : c.Serves s.lattice) (hs : s.Truthful c)
  (hp : s.predictable = true → c.criteria.all Criterion.isMonotone = true)
  (hg : Guide c s.lattice prefers before) {x : Exploration} {done : List Nat}
  {queue : List Entry} {e : Entry}
  (h : Underway c s prefers before (fun _ => False) x done (e :: queue))
include hc hs hp hg h

omit hc hs hp hg in
theorem Underway.later_count (f : Counters → Counters) :
    Later c x { x with checker := x.checker.count f } e.id where
  precedes := x.checker.precedes_count f
  lattice := rfl
  predictable := rfl
  truthful := h.truthful
  objective := rfl
  limits := ⟨rfl, rfl⟩
  visited _ := rfl
  checked _ := Or.inl
  persists _ h := h
  roots _ := Or.inl
  predicts _ h := h

omit hc hs hp in
/-- A transformation is visited without a check if the optimum is preferred to it or it is not
anonymous. -/
theorem Underway.count (f : Counters → Counters)
    (hbest : s.Open c.metric.isMonotone e.id → c.anonymousAt (s.lattice.levelsAt e.id) = true →
      ∃ o ∈ x.progress.optimum, prefers o e.id) :
    Underway c s prefers before (· = e.id) { x with checker := x.checker.count f }
      (e.id :: done) queue :=
  h.pop hg (h.later_count f) (Or.inr rfl) (fun _ ho => Or.inl ho)
    (fun o ho => ⟨o, ho, hg.refl o⟩) hbest

omit hc hs hp in
theorem yields_drop (hv : verdict c.metric.isMonotone x e = .drop) :
    Yields (visit c.metric.isMonotone e queue) x fun last y =>
      Underway c s prefers before (fun _ => False) y (e.id :: done) last := by
  obtain ⟨hm, hout⟩ := verdict_drop hv
  have hshaded : s.Open c.metric.isMonotone e.id → ∃ o ∈ x.progress.optimum, prefers o e.id := by
    intro hopen
    rcases hout with hbound | ⟨hunchecked, hanonymous⟩
    · exact h.prefers_of_bound hg hbound
    · exact h.prefers_of_predicted hg hm hopen hunchecked hanonymous
  have hpopped := h.count hg Counters.pruned fun hopen _ => hshaded hopen
  obtain ⟨space, hrun, hf⟩ := run_prune (x := { x with
    checker := x.checker.count Counters.pruned }) h.lattice h.truthful.indexed h.lt_size queue
  refine yields_of_run (a := queue) ?_ (hpopped.prune hg hf hm hshaded)
  rw [visit, run_get_bind, hv]
  exact hrun

theorem yields_pass (hv : verdict c.metric.isMonotone x e = .pass) :
    Yields (visit c.metric.isMonotone e queue) x fun last y =>
      Underway c s prefers before (fun _ => False) y (e.id :: done) last := by
  have hopen := h.isOpen hs (by rw [hv]; simp)
  have hbest : c.anonymousAt (s.lattice.levelsAt e.id) = true →
      ∃ o ∈ x.progress.optimum, prefers o e.id := by
    intro hanonymous
    rcases verdict_pass hv with hbound | hnot
    · exact h.prefers_of_bound hg hbound
    · have hfalse := h.truthful.has_notAnonymous hc.faithful.wellFormed hc.ready
        (h.lattice ▸ hc.covers) (fun hx => hp (h.predictable ▸ hx)) hnot
      rw [h.lattice, hanonymous] at hfalse
      cases hfalse
  have hpopped := h.count hg Counters.pruned fun _ => hbest
  obtain ⟨ids, new, space, last, hrun, hids, hq⟩ := run_expand hc (x := { x with
    checker := x.checker.count Counters.pruned }) hpopped.precedes.agrees hpopped.lattice
    hpopped.truthful.indexed h.lt_size queue
  refine yields_of_run (a := last) ?_ (hpopped.expand hg hopen hids hq)
  rw [visit, run_get_bind, hv]
  exact hrun

omit hs in
theorem Underway.check (hopen : s.Open c.metric.isMonotone e.id) {y : Exploration}
    (hy : Checked c x y e.id) : Underway c s prefers before (· = e.id)
      { y with progress := y.progress.track y.space e.id } (e.id :: done) queue := by
  have hchecked : y.space.marked e.id Mark.checked = true := by simp [hy.learns.checked]
  have hlattice : y.space.lattice = s.lattice := hy.learns.lattice.trans h.lattice
  have hverdict : y.space.has e.id Mark.anonymous = c.anonymousAt (s.lattice.levelsAt e.id) := by
    rw [hy.truthful.has_anonymous_checked hc.faithful.wellFormed hc.ready
      (hlattice ▸ hc.covers) (fun hx => hp (by
        rwa [hy.learns.predictable, h.predictable] at hx)) hchecked, hlattice]
  have hsame : y.progress.optimum = x.progress.optimum := by rw [hy.progress]
  have hobjective : y.progress.objective = x.progress.objective := by rw [hy.progress]
  have hpersists : ∀ id, x.space.marked id Mark.checked = true →
      y.space.marked id Mark.checked = true := by
    intro id hid
    rw [hy.learns.checked, hid, Bool.true_or]
  have hlater : ∀ optimum, Later c x { y with progress := { y.progress with optimum } } e.id := by
    intro optimum
    exact {
      precedes := hy.precedes
      lattice := hy.learns.lattice
      predictable := hy.learns.predictable
      truthful := hy.truthful
      objective := hobjective
      limits := by
        rw [hy.progress]
        exact ⟨rfl, rfl⟩
      visited := hy.learns.visited
      checked := by
        intro id hid
        rw [hy.learns.checked, Bool.or_eq_true, beq_iff_eq] at hid
        exact hid.imp_right Eq.symm
      persists := hpersists
      roots := hy.learns.roots
      predicts := hy.learns.predicts }
  have htrack := Progress.track_checked hy.truthful (hobjective.trans h.objective) hchecked
    fun o ho => hpersists o (h.optimum o (hsame ▸ ho)).2.2.1
  rw [hverdict, hsame, hlattice] at htrack
  rcases htrack with ⟨hkept, hbest⟩ | ⟨hnew, hanonymous, hranked⟩
  · rw [hkept]
    refine h.pop hg (hlater y.progress.optimum) (Or.inl hopen) ?_ ?_ ?_
    · exact fun o ho => Or.inl (hsame ▸ ho)
    · exact fun o ho => ⟨o, hsame ▸ ho, hg.refl o⟩
    · rintro - hanonymous
      obtain ⟨o, ho, hranked⟩ := hbest hanonymous
      exact ⟨o, hsame ▸ ho, hg.ranked _ _ hranked⟩
  · rw [hnew]
    refine h.pop hg (hlater (some e.id)) (Or.inl hopen) ?_ ?_ ?_
    · rintro o ⟨⟩
      exact Or.inr ⟨rfl, hopen, hchecked, hanonymous⟩
    · exact fun o ho => ⟨e.id, rfl, hg.ranked _ _ (hranked o ho)⟩
    · exact fun _ _ => ⟨e.id, rfl, hg.refl _⟩

theorem yields_check (hv : verdict c.metric.isMonotone x e = .check) :
    Yields (visit c.metric.isMonotone e queue) x fun last y =>
      Underway c s prefers before (fun _ => False) y (e.id :: done) last := by
  have hopen := h.isOpen hs (by rw [hv]; simp)
  have hchecked := yields_assureChecked hc h.precedes h.lattice h.truthful h.objective h.lt_size
  have hvisit : run (visit c.metric.isMonotone e queue) x =
      run (assureChecked e.id >>= fun _ => track e.id >>= fun _ => get >>= fun y =>
        if y.space.has e.id Mark.anonymous && c.metric.isMonotone then prune e.id queue
        else expand e.id queue) x := by
    rw [visit, run_get_bind, hv]
  refine Yields.of_run_eq hvisit (hchecked.bind (fun _ y => ?_) fun _ y hy => ?_)
  · refine ((stable_fits y).track e.id).bind fun _ => keeps_get.bind fun z => ?_
    split_ifs
    · exact keeps_prune (stable_fits y) e.id queue
    · exact keeps_expand (stable_fits y) e.id queue
  · have hpopped := h.check hc hp hg hopen hy
    generalize hz : ({ y with progress := y.progress.track y.space e.id } : Exploration) = z
      at hpopped
    have hrest : run (track e.id >>= fun _ => get >>= fun y =>
        if y.space.has e.id Mark.anonymous && c.metric.isMonotone then prune e.id queue
        else expand e.id queue) y =
        run (if z.space.has e.id Mark.anonymous && c.metric.isMonotone then prune e.id queue
          else expand e.id queue) z := by
      rw [← hz]
      rfl
    refine Yields.of_run_eq hrest ?_
    split_ifs with hprune
    · rw [Bool.and_eq_true] at hprune
      obtain ⟨space, hrun, hf⟩ := run_prune hpopped.lattice hpopped.truthful.indexed h.lt_size
        queue
      refine yields_of_run hrun (hpopped.prune hg hf hprune.2 fun _ =>
        hpopped.best e.id List.mem_cons_self hopen ?_)
      have hanonymous := hpopped.truthful.has_anonymous hc.faithful.wellFormed hc.ready
        (hpopped.lattice ▸ hc.covers) (fun hx => hp (hpopped.predictable ▸ hx)) hprune.1
      rwa [hpopped.lattice] at hanonymous
    · obtain ⟨ids, new, space, last, hrun, hids, hq⟩ := run_expand hc hpopped.precedes.agrees
        hpopped.lattice hpopped.truthful.indexed h.lt_size queue
      exact yields_of_run hrun (hpopped.expand hg hopen hids hq)

theorem yields_visit : Yields (visit c.metric.isMonotone e queue) x fun last y =>
    Underway c s prefers before (fun _ => False) y (e.id :: done) last := by
  cases hv : verdict c.metric.isMonotone x e with
  | drop => exact yields_drop hg h hv
  | pass => exact yields_pass hc hs hp hg h hv
  | check => exact yields_check hc hs hp hg h hv

end

/-! ## Whole searches -/

/-- An optimum that is preferred to everything anonymous that is open. -/
@[mk_iff]
structure Best (c : Checker) (s : SolutionSpace) (prefers : Nat → Nat → Prop)
    (optimum : Option Nat) : Prop where
  found : ∀ o ∈ optimum, s.Open c.metric.isMonotone o ∧
    c.anonymousAt (s.lattice.levelsAt o) = true
  preferred : ∀ v, s.Open c.metric.isMonotone v → c.anonymousAt (s.lattice.levelsAt v) = true →
    ∃ o ∈ optimum, prefers o v

section
variable {c : Checker} {s : SolutionSpace} {prefers before : Nat → Nat → Prop}
  (hg : Guide c s.lattice prefers before) {x : Exploration} {done : List Nat}
include hg

/-- When nothing waits, everything open has been visited or is shaded by the optimum. -/
theorem Underway.best_of_empty
    (h : Underway c s prefers before (fun _ => False) x done []) :
    Best c s prefers x.progress.optimum := by
  have hreached : ∀ v, s.Open c.metric.isMonotone v → v ∈ done ∨
      c.metric.isMonotone = true ∧ ∃ o ∈ x.progress.optimum, prefers o v := by
    intro v hv
    induction hv with
    | bottom free => simpa using Or.inl h.bottom
    | step below up fresh free ih =>
      rcases ih with hdone | ⟨hm, o, ho, hprefers⟩
      · simpa using h.closed _ hdone not_false below _ up (.step below up fresh free)
      · exact Or.inr ⟨hm, o, ho, hg.trans _ _ _ hprefers (hg.climbs hm _ _ up)⟩
  refine ⟨fun o ho => ?_, fun v hv hanonymous => ?_⟩
  · obtain ⟨-, hopen, -, hanonymous⟩ := h.optimum o ho
    exact ⟨hopen, hanonymous⟩
  · rcases hreached v hv with hdone | ⟨-, hshaded⟩
    · exact h.best v hdone hv hanonymous
    · exact hshaded

omit hg in
theorem Underway.length_le {pending : Nat → Prop} {queue : List Entry}
    (h : Underway c s prefers before pending x done queue) :
    done.length + queue.length ≤ s.lattice.size := by
  have hsub : (done ++ queue.map Entry.id).Subperm (List.range s.lattice.size) :=
    h.nodup.subperm fun id hid => List.mem_range.mpr (h.candidates id hid).lt_size
  simpa using hsub.length_le

variable (hc : c.Serves s.lattice) (hs : s.Truthful c)
  (hp : s.predictable = true → c.criteria.all Criterion.isMonotone = true)
include hc hs hp

theorem yields_visitAll (clock : Nat → Nat) {visits turn : Nat} {queue : List Entry}
    (h : Underway c s prefers before (fun _ => False) x done queue)
    (hvisits : done.length + visits = s.lattice.size) :
    Yields (visitAll clock c.metric.isMonotone visits turn queue) x fun proved y =>
      proved = true ∧ Best c s prefers y.progress.optimum := by
  induction visits generalizing x done turn queue with
  | zero =>
    have hlength := h.length_le
    obtain rfl : queue = [] := List.eq_nil_of_length_eq_zero (by omega)
    exact yields_of_run rfl ⟨rfl, h.best_of_empty hg⟩
  | succ visits ih =>
    cases queue with
    | nil => exact yields_of_run rfl ⟨rfl, h.best_of_empty hg⟩
    | cons e queue =>
      have hgo : x.progress.mustStop (clock turn) = false := by
        simp [Progress.mustStop, h.limits.1, h.limits.2]
      have hrun : run (visitAll clock c.metric.isMonotone (visits + 1) turn (e :: queue)) x =
          run (visit c.metric.isMonotone e queue >>=
            visitAll clock c.metric.isMonotone visits (turn + 1)) x := by
        rw [visitAll, run_get_bind, hgo]
        rfl
      refine Yields.of_run_eq hrun ((yields_visit hc hs hp hg h).bind (fun last y => ?_) ?_)
      · exact keeps_visitAll (stable_fits y) clock c.metric.isMonotone visits (turn + 1) last
      · intro last y hy
        exact ih hy (by rw [List.length_cons]; omega)

omit hg hc hp in
theorem underway_bottom (hx : c.Precedes x.checker) (hnone : x.progress.optimum = none)
    (hobjective : x.progress.objective = .loss)
    (hlimits : x.progress.stepLimit = none ∧ x.progress.timeLimit = none)
    {space : SolutionSpace} (hf : s.Follows space [s.lattice.bottom]) :
    Underway c s prefers before (fun _ => False) { x with space } []
      [c.entry s.lattice s.lattice.bottom] where
  precedes := hx
  lattice := hf.lattice
  predictable := hf.predictable
  truthful := hs.follows hf
  objective := hobjective
  limits := hlimits
  nodup := List.nodup_singleton _
  entries e he := by
    rw [List.mem_singleton.mp he]
    rfl
  candidates id hid := Or.inl (List.mem_singleton.mp hid)
  sorted := List.pairwise_singleton _ _
  ordered := List.Pairwise.nil
  ahead d hd := absurd hd List.not_mem_nil
  visited := hf.visited
  checked id hid := Or.inl (hf.checked id ▸ hid)
  persists id hid := (hf.checked id).trans hid
  roots root hroot := Or.inl (hf.anonymousRoots ▸ hroot)
  predicts id hid := by
    rw [SolutionSpace.predicts_anonymous] at hid ⊢
    rwa [hf.lattice, hf.anonymousRoots]
  optimum o ho := by simp [hnone] at ho
  best d hd := absurd hd List.not_mem_nil
  bottom := List.mem_singleton_self _
  closed d hd := absurd hd List.not_mem_nil

/-- A search without limits proves its optimum, which is preferred to everything anonymous that
is open in the space it has started from. -/
theorem yields_search (clock : Nat → Nat) (hx : c.Precedes x.checker) (hspace : x.space = s)
    (hnone : x.progress.optimum = none) (hobjective : x.progress.objective = .loss)
    (hlimits : x.progress.stepLimit = none ∧ x.progress.timeLimit = none) :
    Yields (enqueue s.lattice.bottom [] >>=
      visitAll clock c.metric.isMonotone s.lattice.size 0) x fun proved y =>
        proved = true ∧ Best c s prefers y.progress.optimum := by
  have hlattice : x.space.lattice = s.lattice := by rw [hspace]
  have hindexed : x.space.Indexed := hspace ▸ hs.indexed
  obtain ⟨space, hrun, hf⟩ := run_enqueue hc hx.agrees hlattice hindexed s.lattice.size_pos []
  rw [hspace] at hf
  exact Yields.of_run_eq (run_bind_of_ok hrun) (yields_visitAll hg hc hs hp clock
    (underway_bottom hs hx hnone hobjective hlimits hf) (Nat.zero_add _))

end

end BestFirst

/-- A new best-first search without limits. -/
structure Search.Unlimited (s : Search) : Prop where
  plan : s.plan = .bestFirst
  optimum : s.progress.optimum = none
  objective : s.progress.objective = .loss
  stepLimit : s.progress.stepLimit = none
  timeLimit : s.progress.timeLimit = none

theorem Search.unlimited_ofSettings {settings : SearchSettings} {entropy : RandomSource}
    {s : Search} (h : Search.ofSettings settings entropy = .ok s)
    (hmethod : settings.method = .bestFirst) (hstep : settings.stepLimit = none)
    (htime : settings.timeLimit = none) : s.Unlimited := by
  rw [ofSettings, hmethod] at h
  cases h
  exact ⟨rfl, rfl, rfl, hstep, htime⟩

/-- The space in which a best-first search begins. -/
def SolutionSpace.forSearch (space : SolutionSpace) (c : Checker) : SolutionSpace :=
  space.setPredictable (c.criteria.all Criterion.isMonotone)

theorem Search.best_ended {c : Checker} {space : SolutionSpace} (hc : c.Serves space.lattice)
    (ht : space.Truthful c) {prefers before : Nat → Nat → Prop}
    (hg : BestFirst.Guide c space.lattice prefers before) {s : Search} (hs : s.Unlimited)
    (clock : Nat → Nat) (hfits : (s.ended clock c space).Fits) :
    (s.traverse clock c space).1 = .ok true ∧
      BestFirst.Best c (space.forSearch c) prefers (s.ended clock c space).progress.optimum := by
  have hyields := BestFirst.yields_search (s := space.forSearch c) hg hc (ht.setPredictable _)
    (fun h => h) clock (x := ⟨s.progress.start, c, space.forSearch c, s.source⟩)
    (Checker.Precedes.refl c) rfl hs.optimum hs.objective ⟨hs.stepLimit, hs.timeLimit⟩
  have htraverse : s.traverse clock c space = ((run (BestFirst.traverse clock)
      ⟨s.progress, c, space, s.source⟩).1, (s.traverse clock c space).2) := by
    rw [traverse, hs.plan]
  have hended : s.ended clock c space =
      (run (BestFirst.traverse clock) ⟨s.progress, c, space, s.source⟩).2 := by
    rw [ended, traverse, hs.plan]
  rw [hended] at hfits ⊢
  rw [htraverse]
  obtain ⟨proved, y, hrun, rfl, hbest⟩ := hyields hfits
  have hrun : run (BestFirst.traverse clock) ⟨s.progress, c, space, s.source⟩ = (.ok true, y) :=
    hrun
  rw [hrun]
  exact ⟨rfl, hbest⟩

end Recoding
