import Recoding.Proofs.Certified
import Recoding.Proofs.Lattice.Descents
import Recoding.Proofs.Random.Mechanism
import Recoding.Proofs.Search.Runs

/-!
# The course of a private walk

What a walk draws, one after the other, and how it ends are not part of its answer. They are
kept here by taking the same steps, and the walk is shown to end where its course does. What one
step does to the pool bounds how often anything is drawn.
-/

namespace Recoding.PrivateWalk

open Exploration

/-! ## Pools -/

namespace Pool

def keys (pool : Pool) : List Nat := pool.map Prod.fst

def Finite (pool : Pool) : Prop :=
  ∀ entry ∈ pool, Binary64.magnitude entry.2 < Binary64.infiniteMagnitude

theorem contains_iff {pool : Pool} {id : Nat} :
    Pool.contains pool id = true ↔ id ∈ keys pool := by
  simp [Pool.contains, keys]

theorem mem_insert {pool : Pool} {id : Nat} {score : Float} {entry : Nat × Float} :
    entry ∈ Pool.insert id score pool ↔ entry = (id, score) ∨ entry ∈ pool := by
  induction pool with
  | nil => simp [Pool.insert]
  | cons first rest ih =>
    obtain ⟨key, other⟩ := first
    unfold Pool.insert
    split_ifs
    · exact List.mem_cons
    · rw [List.mem_cons, ih, List.mem_cons]
      exact or_left_comm

theorem mem_keys_insert {pool : Pool} {id k : Nat} {score : Float} :
    k ∈ keys (Pool.insert id score pool) ↔ k = id ∨ k ∈ keys pool := by
  unfold keys
  simp only [List.mem_map, mem_insert]
  constructor
  · rintro ⟨entry, rfl | hentry, rfl⟩
    · exact Or.inl rfl
    · exact Or.inr ⟨entry, hentry, rfl⟩
  · rintro (rfl | ⟨entry, hentry, rfl⟩)
    · exact ⟨_, Or.inl rfl, rfl⟩
    · exact ⟨entry, Or.inr hentry, rfl⟩

theorem mem_keys_erase {pool : Pool} {id k : Nat} :
    k ∈ keys (Pool.erase pool id) ↔ k ∈ keys pool ∧ k ≠ id := by
  unfold keys Pool.erase
  simp only [List.mem_map, List.mem_filter, bne_iff_ne]
  constructor
  · rintro ⟨entry, ⟨hentry, hne⟩, rfl⟩
    exact ⟨⟨entry, hentry, rfl⟩, hne⟩
  · rintro ⟨⟨entry, hentry, rfl⟩, hne⟩
    exact ⟨entry, ⟨hentry, hne⟩, rfl⟩

end Pool

/-! ## Listing candidates -/

/-- A pool to which transformations were added, each of them once it was checked. -/
inductive Collected : List Nat → Pool → Exploration → Pool → Exploration → Prop
  | nil (pool : Pool) (x : Exploration) : Collected [] pool x pool x
  | known {id : Nat} {rest : List Nat} {pool last : Pool} {x y : Exploration}
      (hid : id ∈ pool.keys) (hrest : Collected rest pool x last y) :
      Collected (id :: rest) pool x last y
  | new {id : Nat} {rest : List Nat} {pool last : Pool} {x checked visited y : Exploration}
      {score : Float} (hid : id ∉ pool.keys)
      (hcheck : run (assureChecked id) x = (.ok (), checked))
      (hvisit : run (onSpace (·.mark id Mark.visited)) checked = (.ok (), visited))
      (hscore : scoreOf visited.space id = .ok score)
      (hrest : Collected rest (Pool.insert id score pool) visited last y) :
      Collected (id :: rest) pool x last y

theorem collected_of_run {ids : List Nat} {pool last : Pool} {x y : Exploration}
    (h : run (collect ids pool) x = (.ok last, y)) : Collected ids pool x last y := by
  induction ids generalizing pool x with
  | nil =>
    cases h
    exact .nil _ _
  | cons id rest ih =>
    unfold collect at h
    split_ifs at h with hid
    · exact .known (Pool.contains_iff.mp hid) (ih h)
    · obtain ⟨_, checked, hcheck, h⟩ := run_bind_ok.mp h
      obtain ⟨_, visited, hvisit, h⟩ := run_bind_ok.mp h
      rw [run_get_bind] at h
      cases hscore : scoreOf visited.space id with
      | error failure =>
        rw [hscore] at h
        cases h
      | ok score =>
        rw [hscore] at h
        exact .new (mt Pool.contains_iff.mpr hid) hcheck hvisit hscore (ih h)

section
variable {ids : List Nat} {pool last : Pool} {x y : Exploration}

theorem Collected.mem_keys (h : Collected ids pool x last y) {k : Nat} :
    k ∈ last.keys ↔ k ∈ pool.keys ∨ k ∈ ids := by
  induction h with
  | nil pool x => simp
  | known hid _ ih =>
    rw [ih, List.mem_cons]
    constructor
    · rintro (h | h)
      · exact Or.inl h
      · exact Or.inr (Or.inr h)
    · rintro (h | rfl | h)
      · exact Or.inl h
      · exact Or.inl hid
      · exact Or.inr h
  | new _ _ _ _ _ ih =>
    rw [ih, Pool.mem_keys_insert, List.mem_cons, or_assoc]
    exact or_left_comm

theorem Collected.finite (h : Collected ids pool x last y) (hp : pool.Finite) :
    last.Finite := by
  induction h with
  | nil => exact hp
  | known _ _ ih => exact ih hp
  | @new id rest pool _ _ _ visited _ score _ _ _ hscore _ ih =>
    refine ih fun entry hentry => ?_
    rcases Pool.mem_insert.mp hentry with rfl | hentry
    · unfold scoreOf at hscore
      split at hscore
      · cases hscore
      · exact certified_lt hscore
    · exact hp entry hentry

end

theorem stable_lattice (l : Lattice) : Stable fun x => x.space.lattice = l :=
  stable_space (fun h _ hmark => (SolutionSpace.modify_frame hmark).1.trans h)
    (fun h hbound => (SolutionSpace.modify_frame hbound).1.trans h)
    fun c _ id objective h => (SolutionSpace.check_frame c _ id false objective).1.trans h

theorem stable_predictable (predictable : Bool) :
    Stable fun x => x.space.predictable = predictable :=
  stable_space (fun h _ hmark => (SolutionSpace.modify_frame hmark).2.trans h)
    (fun h hbound => (SolutionSpace.modify_frame hbound).2.trans h)
    fun c _ id objective h => (SolutionSpace.check_frame c _ id false objective).2.trans h

/-- What expanding a transformation leaves: the pool with its predecessors and without it. -/
theorem expand_ok {pivot : Nat} {pool last : Pool} {x y : Exploration}
    (h : run (expand pivot pool) x = (.ok last, y)) : ∃ ids marked collected,
      run (onSpace (·.mark pivot Mark.expanded)) x = (.ok (), marked) ∧
        Collected ids pool marked collected y ∧ last = Pool.erase collected pivot ∧
        ∀ id, id ∈ ids ↔ x.space.lattice.Step id pivot := by
  obtain ⟨_, marked, hmark, h⟩ := run_bind_ok.mp h
  rw [run_get_bind] at h
  have hlattice : marked.space.lattice = x.space.lattice :=
    ((stable_lattice x.space.lattice).mark pivot _ (Or.inl rfl)).of_run hmark rfl
  cases hids : marked.space.lattice.predecessors pivot with
  | error failure =>
    rw [hids] at h
    cases h
  | ok ids =>
    rw [hids] at h
    obtain ⟨collected, z, hcollect, h⟩ := run_bind_ok.mp h
    cases h
    refine ⟨ids, marked, collected, hmark, collected_of_run hcollect, rfl, ?_⟩
    rw [← hlattice]
    exact (Lattice.predecessors_ok hids).2

/-! ## Courses -/

/-- How a walk ends. -/
inductive Ending where
  /-- Nothing was left to draw. -/
  | exhausted
  /-- A limit of the search was reached. -/
  | stopped
  /-- All steps were taken. -/
  | spent
  | failed (failure : Failure)

/-- The answer of a walk, which never proves its optimum. -/
def Ending.answer : Ending → Except Failure Bool
  | .failed failure => .error failure
  | _ => .ok false

/-- What a walk draws, in this order, how it ends, and the state in which it does. -/
structure Course where
  drawn : List Nat
  ending : Ending
  last : Exploration

def halt (x : Exploration) : Exploration := { x with progress := x.progress.terminate }

/-- What one step comes to. -/
inductive Turn where
  | ended (ending : Ending) (last : Exploration)
  /-- A candidate was drawn, counted and compared with the optimum. -/
  | drawn (next : Nat) (pool : Pool) (y : Exploration)

def turn (epsilon : Float) (pivot : Nat) (pool : Pool) (x : Exploration) : Turn :=
  match run (expand pivot pool) x with
  | (.error failure, y) => .ended (.failed failure) y
  | (.ok pool, y) =>
    if pool.isEmpty then .ended .exhausted (halt y)
    else
      let (choice, mechanism) := Mechanism.select ⟨epsilon, y.source⟩ pool
      let z := { y with source := mechanism.source }
      match choice with
      | none => .ended .exhausted (halt z)
      | some next => .drawn next pool { z with
          checker := z.checker.count Counters.draw
          progress := z.progress.track z.space next }

def course (clock : Nat → Nat) (epsilon : Float) : Nat → Nat → Nat → Pool → Exploration → Course
  | 0, _, _, _, x => ⟨[], .spent, halt x⟩
  | steps + 1, time, pivot, pool, x =>
    match turn epsilon pivot pool x with
    | .ended ending y => ⟨[], ending, y⟩
    | .drawn next pool y =>
      if y.progress.mustStop (clock time) then ⟨[next], .stopped, halt y⟩
      else
        let rest := course clock epsilon steps (time + 1) next pool y
        { rest with drawn := next :: rest.drawn }

theorem run_walk (clock : Nat → Nat) (epsilon : Float) (steps time pivot : Nat) (pool : Pool)
    (x : Exploration) : run (walk clock epsilon steps time pivot pool) x =
      ((course clock epsilon steps time pivot pool x).ending.answer,
        (course clock epsilon steps time pivot pool x).last) := by
  induction steps generalizing time pivot pool x with
  | zero => rfl
  | succ steps ih =>
    unfold walk course turn
    rw [run_bind]
    rcases run (expand pivot pool) x with ⟨failure | pool, y⟩
    · rfl
    · dsimp only
      split_ifs with hempty
      · rfl
      · rcases hselect : Mechanism.select ⟨epsilon, y.source⟩ pool with ⟨_ | next, mechanism⟩
        · have hdraw : run (draw epsilon pool) y =
              (.ok none, { y with source := mechanism.source }) := by
            unfold draw
            rw [run_get_bind, hselect]
            rfl
          rw [run_bind, hdraw]
          rfl
        · have hdraw : run (draw epsilon pool) y =
              (.ok (some next), { y with source := mechanism.source }) := by
            unfold draw
            rw [run_get_bind, hselect]
            rfl
          have hproceed : ∀ z : Exploration, run (do
                count Counters.draw
                track next
                let x ← get
                if x.progress.mustStop (clock time) then finish false
                else walk clock epsilon steps (time + 1) next pool) z =
              run (if (z.progress.track z.space next).mustStop (clock time) then finish false
                else walk clock epsilon steps (time + 1) next pool) { z with
                  checker := z.checker.count Counters.draw
                  progress := z.progress.track z.space next } := fun _ => rfl
          rw [run_bind, hdraw]
          dsimp only
          rw [hproceed]
          dsimp only
          split_ifs with hstop
          · rfl
          · exact ih _ _ _ _

/-! ## Steps -/

section
variable {epsilon : Float} {pivot next : Nat} {pool last : Pool} {x y z : Exploration}

/-- What is open after a step is what was open or is a predecessor, but not the transformation
that was left. -/
theorem mem_keys_expand (h : run (expand pivot pool) x = (.ok last, z)) {k : Nat} :
    k ∈ last.keys ↔ (k ∈ pool.keys ∨ x.space.lattice.Step k pivot) ∧ k ≠ pivot := by
  obtain ⟨ids, marked, collected, -, hcollected, rfl, hids⟩ := expand_ok h
  rw [Pool.mem_keys_erase, hcollected.mem_keys, hids]

theorem finite_expand (h : run (expand pivot pool) x = (.ok last, z)) (hp : pool.Finite) :
    last.Finite := by
  obtain ⟨ids, marked, collected, -, hcollected, rfl, -⟩ := expand_ok h
  exact fun entry hentry => hcollected.finite hp entry (List.mem_of_mem_filter hentry)

theorem turn_drawn (h : turn epsilon pivot pool x = .drawn next last y) :
    ∃ z source, run (expand pivot pool) x = (.ok last, z) ∧ next ∈ last.keys ∧
      y = { z with
        checker := z.checker.count Counters.draw
        progress := z.progress.track z.space next
        source } := by
  unfold turn at h
  rcases hexpand : run (expand pivot pool) x with ⟨failure | open', z⟩ <;> rw [hexpand] at h
  · cases h
  · dsimp only at h
    split_ifs at h
    rcases hselect : Mechanism.select ⟨epsilon, z.source⟩ open' with ⟨_ | choice, mechanism⟩ <;>
      rw [hselect] at h
    · cases h
    · cases h
      exact ⟨z, mechanism.source, rfl, Mechanism.select_mem (congrArg Prod.fst hselect), rfl⟩

theorem drawn_keeps {P : Exploration → Prop} (hP : Stable P) (hx : P x)
    (h : turn epsilon pivot pool x = .drawn next last y) : P y := by
  obtain ⟨z, source, hexpand, -, rfl⟩ := turn_drawn h
  have hz : P z := (keeps_expand hP.toSteady pivot pool).of_run hexpand hx
  have hcounted := hP.count Counters.draw z hz
  have htracked := hP.track next _ hcounted
  exact hP.source _ source htracked

/-- A step that ends the walk draws nothing. It is the last one for want of candidates only if
there are none. -/
theorem turn_ended {ending : Ending} (h : turn epsilon pivot pool x = .ended ending y) :
    (∃ failure, ending = .failed failure ∧ run (expand pivot pool) x = (.error failure, y)) ∨
      ending = .exhausted ∧ ∃ last z source, run (expand pivot pool) x = (.ok last, z) ∧
        y = halt { z with source } ∧ (pool.Finite → last = []) := by
  unfold turn at h
  rcases hexpand : run (expand pivot pool) x with ⟨failure | last, z⟩ <;> rw [hexpand] at h
  · cases h
    exact Or.inl ⟨failure, rfl, rfl⟩
  · right
    dsimp only at h
    split_ifs at h with hempty
    · cases h
      exact ⟨rfl, last, z, z.source, rfl, rfl, fun _ => List.isEmpty_iff.mp hempty⟩
    · rcases hselect : Mechanism.select ⟨epsilon, z.source⟩ last with ⟨_ | choice, mechanism⟩ <;>
        rw [hselect] at h
      · cases h
        refine ⟨rfl, last, z, mechanism.source, rfl, rfl, fun hp => ?_⟩
        by_contra hne
        have hsome := Mechanism.select_isSome (m := ⟨epsilon, z.source⟩) hne
          (finite_expand hexpand hp)
        rw [hselect] at hsome
        cases hsome
      · cases h

end

/-! ## What is drawn -/

section
variable (clock : Nat → Nat) (epsilon : Float) (steps time pivot : Nat) (pool : Pool)
  {x : Exploration}

open scoped Classical in
/-- A transformation is drawn no more often than it enters the pool: once if it is there, and
once for every transformation left behind whose predecessor it is. -/
theorem count_course {l : Lattice} (hl : x.space.lattice = l) (v : Nat) :
    (course clock epsilon steps time pivot pool x).drawn.count v ≤
      (if v ∈ pool.keys ∧ v ≠ pivot then 1 else 0) +
        (pivot :: (course clock epsilon steps time pivot pool x).drawn).countP (l.Step v) := by
  induction steps generalizing time pivot pool x with
  | zero => simp [course]
  | succ steps ih =>
    unfold course
    rcases hturn : turn epsilon pivot pool x with ⟨ending, y⟩ | ⟨next, last, y⟩
    · simp
    · obtain ⟨z, source, hexpand, hnext, -⟩ := turn_drawn hturn
      have hlattice : y.space.lattice = l := drawn_keeps (stable_lattice l) hl hturn
      -- whatever is open now was open before or has been listed by this step
      have hopen : (if v ∈ last.keys then 1 else 0) ≤
          (if v ∈ pool.keys ∧ v ≠ pivot then 1 else 0) + if l.Step v pivot then 1 else 0 := by
        have hkeys := mem_keys_expand hexpand (k := v)
        rw [hl] at hkeys
        split_ifs <;> first | omega | tauto
      have hdrawn : (if next = v then 1 else 0) + (if v ∈ last.keys ∧ v ≠ next then 1 else 0) ≤
          if v ∈ last.keys then 1 else 0 := by
        split_ifs <;> first | omega | (subst_vars; tauto)
      dsimp only
      by_cases hstop : y.progress.mustStop (clock time) = true
      · simp only [if_pos hstop, List.count_cons, List.count_nil, List.countP_cons,
          List.countP_nil, beq_iff_eq, decide_eq_true_eq]
        omega
      · have hrest := ih (time + 1) next last hlattice
        simp only [if_neg hstop, List.count_cons, List.countP_cons, beq_iff_eq,
          decide_eq_true_eq] at hrest ⊢
        omega

/-- A walk that ends for want of candidates has drawn all that was open, and all predecessors of
what it has left behind. -/
theorem covers_course {l : Lattice} (hl : x.space.lattice = l) (hp : pool.Finite)
    (h : (course clock epsilon steps time pivot pool x).ending = .exhausted) :
    (∀ v ∈ pool.keys, v ≠ pivot →
      v ∈ (course clock epsilon steps time pivot pool x).drawn) ∧
    ∀ p ∈ pivot :: (course clock epsilon steps time pivot pool x).drawn, ∀ v, l.Step v p →
      v ∈ (course clock epsilon steps time pivot pool x).drawn := by
  induction steps generalizing time pivot pool x with
  | zero => cases h
  | succ steps ih =>
    unfold course at h ⊢
    rcases hturn : turn epsilon pivot pool x with ⟨ending, y⟩ | ⟨next, last, y⟩ <;>
      rw [hturn] at h
    · rcases turn_ended hturn with ⟨failure, rfl, -⟩ | ⟨-, last, z, source, hexpand, -, hlast⟩
      · cases h
      · have hnone : ∀ k, ¬((k ∈ pool.keys ∨ l.Step k pivot) ∧ k ≠ pivot) := by
          intro k hk
          rw [← hl, ← mem_keys_expand hexpand, hlast hp] at hk
          exact absurd hk List.not_mem_nil
        refine ⟨fun v hv hne => absurd ⟨Or.inl hv, hne⟩ (hnone v), fun p hpivot v hstep => ?_⟩
        rw [List.mem_singleton] at hpivot
        subst hpivot
        exact absurd ⟨Or.inr hstep, hstep.ne⟩ (hnone v)
    · obtain ⟨z, source, hexpand, hnext, -⟩ := turn_drawn hturn
      have hlattice : y.space.lattice = l := drawn_keeps (stable_lattice l) hl hturn
      dsimp only at h ⊢
      by_cases hstop : y.progress.mustStop (clock time) = true
      · rw [if_pos hstop] at h
        cases h
      · rw [if_neg hstop] at h ⊢
        obtain ⟨hopen, hlisted⟩ := ih (time + 1) next last hlattice
          (finite_expand hexpand hp) h
        have hkey : ∀ k, k ∈ pool.keys ∨ l.Step k pivot → k ≠ pivot →
            k ∈ next :: (course clock epsilon steps (time + 1) next last y).drawn := by
          intro k hk hne
          have hkeys : k ∈ last.keys := (mem_keys_expand hexpand).mpr ⟨hl.symm ▸ hk, hne⟩
          by_cases he : k = next
          · exact he ▸ List.mem_cons_self
          · exact List.mem_cons_of_mem _ (hopen k hkeys he)
        refine ⟨fun v hv hne => hkey v (Or.inl hv) hne, fun p hp v hstep => ?_⟩
        rcases List.mem_cons.mp hp with rfl | hp
        · exact hkey v (Or.inr hstep) hstep.ne
        · exact List.mem_cons_of_mem _ (hlisted p hp v hstep)

theorem length_course_le : (course clock epsilon steps time pivot pool x).drawn.length ≤ steps := by
  induction steps generalizing time pivot pool x with
  | zero => exact le_rfl
  | succ steps ih =>
    unfold course
    rcases turn epsilon pivot pool x with ⟨ending, y⟩ | ⟨next, last, y⟩
    · exact Nat.zero_le _
    · dsimp only
      split_ifs with hstop
      · exact Nat.succ_le_succ (Nat.zero_le steps)
      · exact Nat.succ_le_succ (ih (time + 1) next last)

/-- A walk that ends because all steps are taken has drawn in each of them. -/
theorem length_course_spent
    (h : (course clock epsilon steps time pivot pool x).ending = .spent) :
    (course clock epsilon steps time pivot pool x).drawn.length = steps := by
  induction steps generalizing time pivot pool x with
  | zero => rfl
  | succ steps ih =>
    unfold course at h ⊢
    rcases hturn : turn epsilon pivot pool x with ⟨ending, y⟩ | ⟨next, last, y⟩ <;>
      rw [hturn] at h
    · rcases turn_ended hturn with ⟨failure, rfl, -⟩ | ⟨rfl, -⟩ <;> cases h
    · dsimp only at h ⊢
      by_cases hstop : y.progress.mustStop (clock time) = true
      · rw [if_pos hstop] at h
        cases h
      · rw [if_neg hstop] at h ⊢
        exact congrArg Nat.succ (ih (time + 1) next last h)

end

/-! ## Traversals -/

/-- The course of a whole traversal, which checks the top before it walks. -/
def courseFromTop (clock : Nat → Nat) (epsilon : Float) (steps : Nat) (x : Exploration) : Course :=
  let top := x.space.lattice.top
  match run (assureChecked top) x with
  | (.error failure, y) => ⟨[], .failed failure, y⟩
  | (.ok _, y) => course clock epsilon steps 0 top []
      { y with progress := y.progress.track y.space top }

section
variable {s : Search} {epsilon perStep : Float} {steps : Nat}

theorem ended_course (hplan : s.plan = .privateWalk epsilon perStep steps) (clock : Nat → Nat)
    (checker : Checker) (space : SolutionSpace) :
    (s.traverse clock checker space).1 =
        (courseFromTop clock perStep steps (s.begun checker space)).ending.answer ∧
      s.ended clock checker space =
        (courseFromTop clock perStep steps (s.begun checker space)).last := by
  have hrun := s.run_traversal clock checker space
  rw [Search.traversal, hplan] at hrun
  dsimp only at hrun
  rw [run_bind] at hrun
  unfold courseFromTop
  simp only [Search.begun_lattice]
  rcases hcheck : run (assureChecked space.lattice.top) (s.begun checker space) with
    ⟨failure | _, y⟩ <;> rw [hcheck] at hrun
  · obtain ⟨hanswer, hended⟩ := Prod.ext_iff.mp hrun
    exact ⟨hanswer.symm, hended.symm⟩
  · have htrack : run (do
          track space.lattice.top
          walk clock perStep steps 0 space.lattice.top []) y =
        run (walk clock perStep steps 0 space.lattice.top [])
          { y with progress := y.progress.track y.space space.lattice.top } := rfl
    dsimp only at hrun
    rw [htrack, run_walk] at hrun
    obtain ⟨hanswer, hended⟩ := Prod.ext_iff.mp hrun
    exact ⟨hanswer.symm, hended.symm⟩

end

section
variable (clock : Nat → Nat) (epsilon : Float) (steps : Nat) {x : Exploration} {l : Lattice}

theorem courseFromTop_cases (hl : x.space.lattice = l) :
    (∃ failure y, run (assureChecked l.top) x = (.error failure, y) ∧
      courseFromTop clock epsilon steps x = ⟨[], .failed failure, y⟩) ∨
    ∃ y, run (assureChecked l.top) x = (.ok (), y) ∧ y.space.lattice = l ∧
      courseFromTop clock epsilon steps x = course clock epsilon steps 0 l.top []
        { y with progress := y.progress.track y.space l.top } := by
  unfold courseFromTop
  simp only [hl]
  rcases hrun : run (assureChecked l.top) x with ⟨failure | _, y⟩
  · exact Or.inl ⟨failure, y, rfl, rfl⟩
  · have hlattice := ((stable_lattice l).assureChecked l.top).of_run hrun hl
    exact Or.inr ⟨y, rfl, hlattice, rfl⟩

open scoped Classical in
theorem count_courseFromTop (hl : x.space.lattice = l) (v : Nat) :
    (courseFromTop clock epsilon steps x).drawn.count v ≤
      (l.top :: (courseFromTop clock epsilon steps x).drawn).countP (l.Step v) := by
  rcases courseFromTop_cases clock epsilon steps hl with
    ⟨failure, y, -, h⟩ | ⟨y, -, hlattice, h⟩ <;> rw [h]
  · exact Nat.zero_le _
  · have hcount := count_course clock epsilon steps 0 l.top []
      (x := { y with progress := y.progress.track y.space l.top }) hlattice v
    simpa [Pool.keys] using hcount

/-- A traversal that ends for want of candidates has drawn everything below the top. -/
theorem covers_courseFromTop (hl : x.space.lattice = l)
    (hended : (courseFromTop clock epsilon steps x).ending = .exhausted) {v : Nat}
    (hv : v < l.top) : v ∈ (courseFromTop clock epsilon steps x).drawn := by
  rcases courseFromTop_cases clock epsilon steps hl with
    ⟨failure, y, -, h⟩ | ⟨y, -, hlattice, h⟩ <;> rw [h] at hended ⊢
  · cases hended
  · obtain ⟨-, hlisted⟩ := covers_course clock epsilon steps 0 l.top []
      (x := { y with progress := y.progress.track y.space l.top }) hlattice
      (fun _ hentry => nomatch hentry) hended
    have hall := l.descend (P := fun v => v = l.top ∨ v ∈
        (course clock epsilon steps 0 l.top []
          { y with progress := y.progress.track y.space l.top }).drawn)
      (fun w hw ih => ?_) (hv.trans l.top_lt_size)
    · exact hall.resolve_left hv.ne
    · by_cases htop : w = l.top
      · exact Or.inl htop
      · obtain ⟨p, hstep⟩ := Lattice.exists_step hw htop
        exact Or.inr (hlisted p (List.mem_cons.mpr (ih p hstep)) w hstep)

theorem length_courseFromTop_le : (courseFromTop clock epsilon steps x).drawn.length ≤ steps := by
  rcases courseFromTop_cases clock epsilon steps (x := x) rfl with
    ⟨failure, y, -, h⟩ | ⟨y, -, -, h⟩ <;> rw [h]
  · exact Nat.zero_le _
  · exact length_course_le clock epsilon steps 0 _ _

theorem length_courseFromTop_spent
    (hended : (courseFromTop clock epsilon steps x).ending = .spent) :
    (courseFromTop clock epsilon steps x).drawn.length = steps := by
  rcases courseFromTop_cases clock epsilon steps (x := x) rfl with
    ⟨failure, y, -, h⟩ | ⟨y, -, -, h⟩ <;> rw [h] at hended ⊢
  · cases hended
  · exact length_course_spent clock epsilon steps 0 _ _ hended

end

end Recoding.PrivateWalk
