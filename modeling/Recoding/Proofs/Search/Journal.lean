import Recoding.Proofs.Search.Exhaustion

/-!
# The journal of a private walk

What is open at each draw of a walk, what the walk has found out by then and what it has checked
are not part of its course. A journal is kept of them by taking the same steps. What one step does
to the pool, to the optimum and to the checked transformations then holds at every draw.
-/

namespace Recoding

/-! ## The first of the best -/

namespace SolutionSpace

/-- An anonymous one of the given transformations that outscores all other anonymous ones, the
first of several that do, by what the space holds about them. -/
structure Foremost (s : SolutionSpace) (seen : List Nat) (optimum : Option Nat) : Prop where
  nothing : optimum = none → ∀ v ∈ seen, ∃ g, s.Shows v g ∧ g.anonymous = false
  first : ∀ o, optimum = some o → ∃ before after f, seen = before ++ o :: after ∧ s.Shows o f ∧
    f.anonymous = true ∧ (∀ v ∈ before, ∃ g, s.Shows v g ∧ (g.anonymous = true → f.Beats g)) ∧
    ∀ v ∈ after, ∃ g, s.Shows v g ∧ (g.anonymous = true → f.Outscores g)

theorem foremost_nil (s : SolutionSpace) : s.Foremost [] none :=
  ⟨fun _ _ hv => absurd hv List.not_mem_nil, fun _ h => nomatch h⟩

namespace Foremost

section
variable {s after : SolutionSpace} {seen : List Nat} {optimum : Option Nat}
  (h : s.Foremost seen optimum)
include h

theorem settled : ∀ o ∈ optimum, s.Settled o := by
  intro o ho
  obtain ⟨-, -, f, -, hf, -⟩ := h.first o ho
  exact ⟨f, hf⟩

theorem mono (hshows : ∀ v f, s.Shows v f → after.Shows v f) : after.Foremost seen optimum := by
  constructor
  · intro hnone v hv
    obtain ⟨g, hg, hanonymous⟩ := h.nothing hnone v hv
    exact ⟨g, hshows v g hg, hanonymous⟩
  · intro o ho
    obtain ⟨before, later, f, hseen, hf, hanonymous, hbefore, hlater⟩ := h.first o ho
    refine ⟨before, later, f, hseen, hshows o f hf, hanonymous, fun v hv => ?_, fun v hv => ?_⟩
    · obtain ⟨g, hg, hbest⟩ := hbefore v hv
      exact ⟨g, hshows v g hg, hbest⟩
    · obtain ⟨g, hg, hbest⟩ := hlater v hv
      exact ⟨g, hshows v g hg, hbest⟩

theorem stay {v : Nat} {g : Finding} (hv : s.Shows v g)
    (hbest : g.anonymous = true → ∃ o ∈ optimum, ∃ f, s.Shows o f ∧ f.Outscores g) :
    s.Foremost (seen ++ [v]) optimum := by
  constructor
  · intro hnone w hw
    rcases List.mem_append.mp hw with hw | hw
    · exact h.nothing hnone w hw
    · rw [List.mem_singleton.mp hw]
      refine ⟨g, hv, Bool.eq_false_iff.mpr fun hanonymous => ?_⟩
      obtain ⟨o, ho, -⟩ := hbest hanonymous
      rw [hnone] at ho
      cases ho
  · intro o ho
    obtain ⟨before, later, f, hseen, hf, hanonymous, hbefore, hlater⟩ := h.first o ho
    refine ⟨before, later ++ [v], f, by simp [hseen], hf, hanonymous, hbefore, fun w hw => ?_⟩
    rcases List.mem_append.mp hw with hw | hw
    · exact hlater w hw
    · rw [List.mem_singleton.mp hw]
      refine ⟨g, hv, fun hanonymous => ?_⟩
      obtain ⟨_, ho', k, hk, houtscores⟩ := hbest hanonymous
      cases ho.symm.trans ho'
      rwa [hf.unique hk]

theorem replace {v : Nat} {f : Finding} (hv : s.Shows v f) (hanonymous : f.anonymous = true)
    (hbest : ∀ o ∈ optimum, ∀ g, s.Shows o g → f.Beats g) :
    s.Foremost (seen ++ [v]) (some v) := by
  refine ⟨fun hnone => (nomatch hnone), ?_⟩
  rintro _ ⟨⟩
  refine ⟨seen, [], f, rfl, hv, hanonymous, fun w hw => ?_, fun w hw => absurd hw List.not_mem_nil⟩
  cases hoptimum : optimum with
  | none =>
    obtain ⟨g, hg, hviolated⟩ := h.nothing hoptimum w hw
    refine ⟨g, hg, fun htrue => ?_⟩
    cases hviolated.symm.trans htrue
  | some o =>
    obtain ⟨before, later, k, rfl, hk, -, hbefore, hlater⟩ := h.first o hoptimum
    have hbeats : f.Beats k := hbest o hoptimum k hk
    rcases List.mem_append.mp hw with hw | hw
    · obtain ⟨g, hg, hless⟩ := hbefore w hw
      exact ⟨g, hg, fun htrue => hbeats.trans_outscores (hless htrue).outscores⟩
    · rcases List.mem_cons.mp hw with rfl | hw
      · exact ⟨k, hk, fun _ => hbeats⟩
      · obtain ⟨g, hg, hless⟩ := hlater w hw
        exact ⟨g, hg, fun htrue => hbeats.trans_outscores (hless htrue)⟩

end

theorem track {s : SolutionSpace} {p : Progress} {seen : List Nat}
    (h : s.Foremost seen p.optimum) (hp : p.objective = .score) (hs : s.predictable = false)
    {v : Nat} (hv : s.Settled v) : s.Foremost (seen ++ [v]) (p.track s v).optimum := by
  obtain ⟨f, hf⟩ := hv
  rcases Progress.track_cases hp hs h.settled hf with
    ⟨htrack, hbest⟩ | ⟨htrack, hanonymous, hbest⟩ <;> rw [htrack]
  · exact h.stay hf hbest
  · exact h.replace hf hanonymous hbest

end Foremost
end SolutionSpace

open Exploration

namespace PrivateWalk

/-! ## What is open -/

namespace Pool

theorem sorted_insert {pool : Pool} (h : pool.keys.Pairwise (· < ·)) {id : Nat}
    (hid : id ∉ pool.keys) (score : Float) :
    (Pool.keys (Pool.insert id score pool)).Pairwise (· < ·) := by
  induction pool with
  | nil => exact List.pairwise_singleton _ _
  | cons first rest ih =>
    obtain ⟨key, other⟩ := first
    obtain ⟨hfirst, hrest⟩ := List.pairwise_cons.mp h
    obtain ⟨hne, hid⟩ : id ≠ key ∧ id ∉ Pool.keys rest := by simpa [keys] using hid
    unfold Pool.insert
    split_ifs with hlt
    · refine List.pairwise_cons.mpr ⟨fun k hk => ?_, h⟩
      rcases List.mem_cons.mp hk with rfl | hk
      · exact hlt
      · exact hlt.trans (hfirst k hk)
    · refine List.pairwise_cons.mpr ⟨fun k hk => ?_, ih hrest hid⟩
      rcases mem_keys_insert.mp hk with rfl | hk
      · exact lt_of_le_of_ne (not_lt.mp hlt) hne.symm
      · exact hfirst k hk

theorem sorted_erase {pool : Pool} (h : pool.keys.Pairwise (· < ·)) (id : Nat) :
    (Pool.keys (Pool.erase pool id)).Pairwise (· < ·) :=
  h.sublist (List.filter_sublist.map Prod.fst)

end Pool

/-- A transformation that one of the given ones has as a predecessor, and that is none of those
that come after it. -/
def Listed (l : Lattice) (pivots : List Nat) (v : Nat) : Prop :=
  ∃ before p after, pivots = before ++ p :: after ∧ l.Step v p ∧ v ∉ after

theorem listed_concat {l : Lattice} {pivots : List Nat} {pivot v : Nat} :
    Listed l (pivots ++ [pivot]) v ↔ (Listed l pivots v ∨ l.Step v pivot) ∧ v ≠ pivot := by
  constructor
  · rintro ⟨before, p, after, heq, hstep, hnot⟩
    rcases List.eq_nil_or_concat after with rfl | ⟨after, last, rfl⟩
    · obtain ⟨rfl, hlast⟩ := List.append_inj' heq rfl
      cases hlast
      exact ⟨Or.inr hstep, hstep.ne⟩
    · rw [List.concat_eq_append] at heq hnot
      have heq : pivots ++ [pivot] = (before ++ p :: after) ++ [last] := by simpa using heq
      obtain ⟨rfl, hlast⟩ := List.append_inj' heq rfl
      cases hlast
      rw [List.mem_append, not_or, List.mem_singleton] at hnot
      exact ⟨Or.inl ⟨before, p, after, rfl, hstep, hnot.1⟩, hnot.2⟩
  · rintro ⟨⟨before, p, after, rfl, hstep, hnot⟩ | hstep, hne⟩
    · refine ⟨before, p, after ++ [pivot], by simp, hstep, ?_⟩
      rw [List.mem_append, not_or, List.mem_singleton]
      exact ⟨hnot, hne⟩
    · exact ⟨pivots, pivot, [], rfl, hstep, List.not_mem_nil⟩

/-- A pool after the given transformations were expanded: what they have listed since it was left
last, in ascending order, each with the certified double of its exact score. -/
structure Current (l : Lattice) (pivots : List Nat) (pool : Pool) (s : SolutionSpace) : Prop where
  sorted : pool.keys.Pairwise (· < ·)
  listed : ∀ v, v ∈ pool.keys ↔ Listed l pivots v
  scored : ∀ entry ∈ pool, ∃ f, s.Shows entry.1 f ∧ certified f.score = .ok entry.2

theorem current_nil (l : Lattice) (s : SolutionSpace) : Current l [] [] s where
  sorted := List.Pairwise.nil
  listed v := by simp [Pool.keys, Listed]
  scored _ hentry := nomatch hentry

section
variable {l : Lattice} {pivots ids : List Nat} {pivot : Nat} {pool last : Pool} {x y : Exploration}

theorem Current.finite {s : SolutionSpace} (h : Current l pivots pool s) : pool.Finite := by
  intro entry hentry
  obtain ⟨f, -, hscore⟩ := h.scored entry hentry
  exact certified_lt hscore

theorem score_of_settled {s : SolutionSpace} {id : Nat} {score : Float} (hs : s.Settled id)
    (h : scoreOf s id = .ok score) : ∃ f, s.Shows id f ∧ certified f.score = .ok score := by
  obtain ⟨f, hf⟩ := hs
  refine ⟨f, hf, ?_⟩
  have hnode : s.node? id >>= Node.score = some f.score := hf.scoreOf
  rwa [scoreOf, hnode] at h

theorem Collected.sorted (h : Collected ids pool x last y) (hp : pool.keys.Pairwise (· < ·)) :
    last.keys.Pairwise (· < ·) := by
  induction h with
  | nil => exact hp
  | known _ _ ih => exact ih hp
  | new hid _ _ _ _ ih => exact ih (Pool.sorted_insert hp hid _)

theorem Collected.scored (h : Collected ids pool x last y) (ho : x.progress.objective = .score)
    (hp : ∀ entry ∈ pool, ∃ f, x.space.Shows entry.1 f ∧ certified f.score = .ok entry.2) :
    ∀ entry ∈ last, ∃ f, y.space.Shows entry.1 f ∧ certified f.score = .ok entry.2 := by
  induction h with
  | nil => exact hp
  | known _ _ ih => exact ih ho hp
  | @new id rest pool last x checked visited y score _ hcheck hvisit hscore _ ih =>
    have hkept : ∀ P, Steady P → P x → P visited := fun P hP hx =>
      (hP.visited id).of_run hvisit ((hP.assureChecked id).of_run hcheck hx)
    refine ih (hkept _ (steady_optimum x.progress.optimum _) ⟨rfl, ho⟩).2 fun entry hentry => ?_
    rcases Pool.mem_insert.mp hentry with rfl | hentry
    · have hsettled : visited.space.Settled id :=
        ((steady_settled id).visited id).of_run hvisit (settled_assureChecked hcheck ho)
      exact score_of_settled hsettled hscore
    · obtain ⟨f, hf, hcertified⟩ := hp entry hentry
      exact ⟨f, hkept _ (stable_shows entry.1 f).toSteady hf, hcertified⟩

theorem Current.expand (h : Current l pivots pool x.space) (hl : x.space.lattice = l)
    (ho : x.progress.objective = .score) (hrun : run (expand pivot pool) x = (.ok last, y)) :
    Current l (pivots ++ [pivot]) last y.space := by
  obtain ⟨ids, marked, collected, hmark, hcollected, hlast, -⟩ := expand_ok hrun
  have hkept : ∀ P, Steady P → P x → P marked := fun P hP hx =>
    (hP.mark pivot _ (Or.inl rfl)).of_run hmark hx
  constructor
  · rw [hlast]
    exact Pool.sorted_erase (hcollected.sorted h.sorted) pivot
  · intro v
    rw [mem_keys_expand hrun, h.listed, hl, listed_concat]
  · intro entry hentry
    rw [hlast] at hentry
    refine hcollected.scored (hkept _ (steady_optimum x.progress.optimum _) ⟨rfl, ho⟩).2
      (fun entry hentry => ?_) entry (List.mem_of_mem_filter hentry)
    obtain ⟨f, hf, hcertified⟩ := h.scored entry hentry
    exact ⟨f, hkept _ (stable_shows entry.1 f).toSteady hf, hcertified⟩

end

/-! ## What is checked -/

/-- A transformation, unless all that is asked about it is known. -/
def unsettled (id : Nat) (x : Exploration) : List Nat :=
  if x.progress.isSettled x.space id then [] else [id]

/-- The transformations that are checked while candidates are listed, up to a failure. -/
def checkedBy : List Nat → Pool → Exploration → List Nat
  | [], _, _ => []
  | id :: rest, pool, x =>
    let here := if Pool.contains pool id then [] else unsettled id x
    match run (collect [id] pool) x with
    | (.error _, _) => here
    | (.ok next, y) => here ++ checkedBy rest next y

def checkedIn (pivot : Nat) (pool : Pool) (x : Exploration) : List Nat :=
  match run (onSpace (·.mark pivot Mark.expanded)) x with
  | (.error _, _) => []
  | (.ok _, y) =>
    match y.space.lattice.predecessors pivot with
    | .error _ => []
    | .ok ids => checkedBy ids pool y

def checks (x : Exploration) : Nat := x.checker.counters.checks

structure Scoring (l : Lattice) (x : Exploration) : Prop where
  lattice : x.space.lattice = l
  objective : x.progress.objective = .score

theorem steady_scoring (l : Lattice) : Steady (Scoring l) := by
  have hkeeps : ∀ {m : Exploring Unit}, (∀ P, Steady P → Keeps P m) → Keeps (Scoring l) m :=
    fun hm x h => ⟨hm _ (stable_lattice l).toSteady x h.lattice,
      (hm _ (steady_optimum x.progress.optimum .score) x ⟨rfl, h.objective⟩).2⟩
  exact ⟨fun id => hkeeps fun P hP => hP.visited id,
    fun id new hnew => hkeeps fun P hP => hP.mark id new hnew,
    fun id => hkeeps fun P hP => hP.assureChecked id⟩

/-- Transformations that are checked between two states, each of them for the first time. -/
structure ChecksOnce (made : List Nat) (x y : Exploration) : Prop where
  nodup : made.Nodup
  fresh : ∀ id ∈ made, ¬x.space.Settled id
  counted : checks y = checks x + made.length
  kept : ∀ v, x.space.Settled v → y.space.Settled v

section
variable {made more : List Nat} {x y z : Exploration}

theorem ChecksOnce.none (hcounted : checks y = checks x)
    (hkept : ∀ v, x.space.Settled v → y.space.Settled v) : ChecksOnce [] x y :=
  ⟨List.nodup_nil, fun _ hid => absurd hid List.not_mem_nil, hcounted, hkept⟩

theorem ChecksOnce.append (h : ChecksOnce made x y) (hsettled : ∀ id ∈ made, y.space.Settled id)
    (k : ChecksOnce more y z) : ChecksOnce (made ++ more) x z where
  nodup := by
    refine List.nodup_append'.mpr ⟨h.nodup, k.nodup, fun id hid hid' => ?_⟩
    exact k.fresh id hid' (hsettled id hid)
  fresh id hid := by
    rcases List.mem_append.mp hid with hid | hid
    · exact h.fresh id hid
    · exact mt (h.kept id) (k.fresh id hid)
  counted := by
    rw [k.counted, h.counted, List.length_append, Nat.add_assoc]
  kept v hv := k.kept v (h.kept v hv)

theorem checksOnce_onSpace {f : SolutionSpace → Except Failure SolutionSpace}
    (hf : ∀ v, Keeps (fun x => x.space.Settled v) (onSpace f)) (x : Exploration) :
    ChecksOnce [] x (run (onSpace f) x).2 := by
  have hcounted : Keeps (fun y => checks y = checks x) (onSpace f) := keeps_onSpace fun _ _ h _ => h
  exact .none (hcounted x rfl) fun v => hf v x

/-- A known transformation is checked, and that is counted, unless it is settled. -/
theorem checks_assureChecked {id : Nat} (hid : id < x.space.lattice.size) :
    checks (run (assureChecked id) x).2 = checks x + (unsettled id x).length := by
  have hcounted := congrArg Counters.checks (Checker.ofSearch_check
    (Lattice.levelsOf_levelsAt hid) x.checker false x.progress.objective)
  rw [run_assureChecked]
  unfold unsettled
  split_ifs
  · rfl
  · rcases hresult : x.checker.check x.space id false x.progress.objective with
      ⟨failure | e, checker, space⟩ <;> rw [hresult] at hcounted <;> exact hcounted

theorem checksOnce_assureChecked {l : Lattice} (h : Scoring l x) {id : Nat} (hid : id < l.size) :
    ChecksOnce (unsettled id x) x (run (assureChecked id) x).2 where
  nodup := by
    unfold unsettled
    split_ifs
    · exact List.nodup_nil
    · exact List.nodup_singleton id
  fresh v hv := by
    unfold unsettled at hv
    split_ifs at hv with hsettled
    · cases hv
    · rw [List.mem_singleton.mp hv]
      exact mt (Progress.isSettled_iff h.objective).mpr hsettled
  counted := checks_assureChecked (h.lattice ▸ hid)
  kept v := (steady_settled v).assureChecked id x

theorem settled_of_unsettled {id : Nat} (hrun : run (assureChecked id) x = (.ok (), y))
    (ho : x.progress.objective = .score) : ∀ v ∈ unsettled id x, y.space.Settled v := by
  intro v hv
  unfold unsettled at hv
  split_ifs at hv
  · cases hv
  · rw [List.mem_singleton.mp hv]
    exact settled_assureChecked hrun ho

end

/-- The checks of a part of a search, all of which are settled if it succeeds. -/
def Checking {α : Type} (made : List Nat) (m : Exploring α) (x : Exploration) : Prop :=
  ChecksOnce made x (run m x).2 ∧
    ∀ a y, run m x = (.ok a, y) → ∀ id ∈ made, y.space.Settled id

section
variable {α β : Type} {made more : List Nat} {m : Exploring α} {f : α → Exploring β}
  {x y : Exploration} {l : Lattice}

theorem Checking.bind (more : List Nat) (hm : Checking made m x)
    (hf : ∀ a y, run m x = (.ok a, y) → Checking more (f a) y) (hfail : ∀ failure y,
      run m x = (.error failure, y) → more = []) : Checking (made ++ more) (m >>= f) x := by
  obtain ⟨honce, hsettled⟩ := hm
  unfold Checking
  rw [run_bind]
  rcases hrun : run m x with ⟨failure | a, y⟩ <;> rw [hrun] at honce
  · rw [hfail failure y hrun, List.append_nil]
    exact ⟨honce, fun _ _ h => nomatch h⟩
  · obtain ⟨hmore, hlast⟩ := hf a y hrun
    have hmade := hsettled a y hrun
    refine ⟨honce.append hmade hmore, fun b z hz id hid => ?_⟩
    dsimp only at hz
    rw [hz] at hmore
    rcases List.mem_append.mp hid with hid | hid
    · exact hmore.kept id (hmade id hid)
    · exact hlast b z hz id hid

theorem Checking.none (h : ChecksOnce [] x (run m x).2) : Checking [] m x :=
  ⟨h, fun _ _ _ _ hid => absurd hid List.not_mem_nil⟩

/-- Adding one transformation to the candidates checks it, unless it is open or settled. -/
theorem checking_collect_single {id : Nat} (pool : Pool) (h : Scoring l x) (hid : id < l.size) :
    Checking (if Pool.contains pool id then [] else unsettled id x) (collect [id] pool) x := by
  unfold collect
  split_ifs
  · exact .none (.none rfl fun _ h => h)
  · have hchecked := checksOnce_assureChecked h hid
    rw [← List.append_nil (unsettled id x)]
    refine .bind [] ⟨hchecked, fun _ _ hrun => settled_of_unsettled hrun h.objective⟩
      (fun _ y _ => .none ?_) fun _ _ _ => rfl
    have hmarked := checksOnce_onSpace (fun v => (steady_settled v).visited id) y
    rw [run_bind]
    rcases hrun : run (onSpace (·.mark id Mark.visited)) y with ⟨failure | _, z⟩ <;>
      rw [hrun] at hmarked
    · exact hmarked
    · dsimp only
      rw [run_get_bind]
      cases scoreOf z.space id <;> exact hmarked

theorem run_collect_cons (id : Nat) (rest : List Nat) (pool : Pool) (x : Exploration) :
    run (collect (id :: rest) pool) x = run (collect [id] pool >>= collect rest) x := by
  rw [run_bind]
  simp only [collect]
  split_ifs
  · rfl
  · rw [run_bind, run_bind]
    rcases run (assureChecked id) x with ⟨failure | _, y⟩
    · rfl
    · dsimp only
      rw [run_bind, run_bind]
      rcases run (onSpace (·.mark id Mark.visited)) y with ⟨failure | _, z⟩
      · rfl
      · dsimp only
        rw [run_get_bind, run_get_bind]
        cases scoreOf z.space id <;> rfl

theorem checking_collect {ids : List Nat} (pool : Pool) (h : Scoring l x)
    (hids : ∀ id ∈ ids, id < l.size) : Checking (checkedBy ids pool x) (collect ids pool) x := by
  induction ids generalizing pool x with
  | nil => exact .none (.none rfl fun _ h => h)
  | cons id rest ih =>
    have hrest : ∀ other ∈ rest, other < l.size := fun _ h => hids _ (List.mem_cons_of_mem _ h)
    have hfirst := checking_collect_single pool h (hids id List.mem_cons_self)
    unfold Checking
    rw [run_collect_cons]
    unfold checkedBy
    rcases hrun : run (collect [id] pool) x with ⟨failure | next, y⟩
    · have hall := hfirst.bind (f := collect rest) []
        (fun a y h => by rw [hrun] at h; cases h) fun _ _ _ => rfl
      rwa [List.append_nil] at hall
    · have hy : Scoring l y := (keeps_collect (steady_scoring l) [id] pool).of_run hrun h
      refine hfirst.bind _ (fun a z hz => ?_) fun failure z hz => ?_ <;> rw [hrun] at hz <;> cases hz
      exact ih next hy hrest

theorem checking_expand (pivot : Nat) (pool : Pool) (h : Scoring l x) :
    Checking (checkedIn pivot pool x) (expand pivot pool) x := by
  have hmarked : Checking [] (onSpace (·.mark pivot Mark.expanded)) x :=
    .none (checksOnce_onSpace (fun v => (steady_settled v).mark pivot _ (Or.inl rfl)) x)
  unfold checkedIn
  rcases hrun : run (onSpace (·.mark pivot Mark.expanded)) x with ⟨failure | _, y⟩
  · exact hmarked.bind [] (fun _ _ hok => by rw [hrun] at hok; cases hok)
      fun _ _ _ => rfl
  · dsimp only
    have hy : Scoring l y := ((steady_scoring l).mark pivot _ (Or.inl rfl)).of_run hrun h
    refine hmarked.bind _ (fun a z hz => ?_) (fun failure z hz => ?_) <;> rw [hrun] at hz <;> cases hz
    unfold Checking
    rw [run_get_bind]
    cases hids : y.space.lattice.predecessors pivot with
    | error failure => exact Checking.none (m := throw failure) (.none rfl fun _ h => h)
    | ok ids =>
      have hsize : ∀ id ∈ ids, id < l.size := by
        intro id hid
        rw [← hy.lattice]
        exact (((Lattice.predecessors_ok hids).2 id).mp hid).left
      have hall := (checking_collect pool hy hsize).bind []
        (f := fun pool => pure (Pool.erase pool pivot))
        (fun _ _ _ => .none (.none rfl fun _ h => h)) fun _ _ _ => rfl
      rwa [List.append_nil] at hall

end

/-! ## Journals -/

/-- What a walk has at hand when it draws. -/
structure Draw where
  pool : Pool
  /-- The state before the draw. -/
  state : Exploration
  choice : Option Nat

/-- The draws of a walk and the transformations that it checks, both in order. -/
structure Journal where
  draws : List Draw
  checked : List Nat

/-- The draw of one step, unless nothing is open. -/
def drawIn (epsilon : Float) (pivot : Nat) (pool : Pool) (x : Exploration) : List Draw :=
  match run (expand pivot pool) x with
  | (.error _, _) => []
  | (.ok last, y) =>
    if last.isEmpty then [] else [⟨last, y, (Mechanism.select ⟨epsilon, y.source⟩ last).1⟩]

def journal (clock : Nat → Nat) (epsilon : Float) :
    Nat → Nat → Nat → Pool → Exploration → Journal
  | 0, _, _, _, _ => ⟨[], []⟩
  | steps + 1, time, pivot, pool, x =>
    let here : Journal := ⟨drawIn epsilon pivot pool x, checkedIn pivot pool x⟩
    match turn epsilon pivot pool x with
    | .ended _ _ => here
    | .drawn next last y =>
      if y.progress.mustStop (clock time) then here
      else
        let rest := journal clock epsilon steps (time + 1) next last y
        ⟨here.draws ++ rest.draws, here.checked ++ rest.checked⟩

/-- The journal of a whole traversal, which checks the top before it walks. -/
def journalFromTop (clock : Nat → Nat) (epsilon : Float) (steps : Nat) (x : Exploration) :
    Journal :=
  let top := x.space.lattice.top
  let here := unsettled top x
  match run (assureChecked top) x with
  | (.error _, _) => ⟨[], here⟩
  | (.ok _, y) =>
    let rest := journal clock epsilon steps 0 top []
      { y with progress := y.progress.track y.space top }
    ⟨rest.draws, here ++ rest.checked⟩

section
variable {epsilon : Float} {pivot next : Nat} {pool last : Pool} {x y z : Exploration}
  {l : Lattice} {left : List Nat}

theorem drawIn_drawn (h : turn epsilon pivot pool x = .drawn next last y) :
    ∃ z source, run (expand pivot pool) x = (.ok last, z) ∧ next ∈ last.keys ∧
      drawIn epsilon pivot pool x = [⟨last, z, some next⟩] ∧
      y = { z with
        checker := z.checker.count Counters.draw
        progress := z.progress.track z.space next
        source } := by
  obtain ⟨z, source, hexpand, hnext, hy⟩ := turn_drawn h
  refine ⟨z, source, hexpand, hnext, ?_, hy⟩
  unfold turn at h
  unfold drawIn
  rw [hexpand] at h ⊢
  dsimp only at h ⊢
  split_ifs at h ⊢
  rcases hselect : Mechanism.select ⟨epsilon, z.source⟩ last with ⟨_ | choice, mechanism⟩ <;>
    rw [hselect] at h
  · cases h
  · cases h
    rfl

/-- From candidates with finite scores something is drawn, so a step that ends the walk has
nothing to draw from. -/
theorem drawIn_ended {ending : Ending} (h : turn epsilon pivot pool x = .ended ending y)
    (hp : pool.Finite) : drawIn epsilon pivot pool x = [] := by
  unfold drawIn
  rcases turn_ended h with ⟨failure, -, hexpand⟩ | ⟨-, last, z, source, hexpand, -, hlast⟩ <;>
    rw [hexpand]
  dsimp only
  rw [hlast hp]
  rfl

/-- A state in which a walk is about to expand its pivot. -/
structure Ongoing (l : Lattice) (left : List Nat) (pool : Pool) (x : Exploration) : Prop where
  scoring : Scoring l x
  current : Current l left pool x.space

theorem Ongoing.expand (h : Ongoing l left pool x)
    (hrun : run (expand pivot pool) x = (.ok last, z)) : Ongoing l (left ++ [pivot]) last z :=
  ⟨(keeps_expand (steady_scoring l) pivot pool).of_run hrun h.scoring,
    h.current.expand h.scoring.lattice h.scoring.objective hrun⟩

theorem Ongoing.drawn (h : Ongoing l left last z) (source : RandomSource) :
    Ongoing l left last { z with
      checker := z.checker.count Counters.draw
      progress := z.progress.track z.space next
      source } :=
  ⟨⟨h.scoring.lattice, (z.progress.track_objective z.space next).trans h.scoring.objective⟩,
    h.current⟩

/-- An optimum that is the first of the best of what a walk has been at. -/
def Tracked (seen : List Nat) (x : Exploration) : Prop :=
  x.progress.objective = .score ∧ x.space.predictable = false ∧
    x.space.Foremost seen x.progress.optimum

theorem steady_foremost (seen : List Nat) : Steady (Tracked seen) :=
  steady_tracked (Q := fun s optimum => s.Foremost seen optimum)
    fun _ _ _ hshows h => h.mono hshows

theorem Tracked.track {seen : List Nat} (h : Tracked seen z) {v : Nat} (hv : z.space.Settled v) :
    Tracked (seen ++ [v]) { z with progress := z.progress.track z.space v } :=
  ⟨(z.progress.track_objective z.space v).trans h.1, h.2.1, h.2.2.track h.1 h.2.1 hv⟩

theorem Current.settled {s : SolutionSpace} (h : Current l left pool s) :
    ∀ k ∈ pool.keys, s.Settled k := by
  intro k hk
  obtain ⟨entry, hentry, rfl⟩ := List.mem_map.mp hk
  obtain ⟨f, hf, -⟩ := h.scored entry hentry
  exact ⟨f, hf⟩

variable (clock : Nat → Nat) (epsilon : Float) (steps time pivot : Nat) (pool : Pool)

theorem choices_journal (h : Ongoing l left pool x) :
    (journal clock epsilon steps time pivot pool x).draws.map Draw.choice =
      (course clock epsilon steps time pivot pool x).drawn.map some := by
  induction steps generalizing left time pivot pool x with
  | zero => rfl
  | succ steps ih =>
    unfold journal course
    rcases hturn : turn epsilon pivot pool x with ⟨ending, y⟩ | ⟨next, last, y⟩
    · dsimp only
      rw [drawIn_ended hturn h.current.finite]
      rfl
    · obtain ⟨z, source, hexpand, -, hdraw, rfl⟩ := drawIn_drawn hturn
      dsimp only
      rw [hdraw]
      split_ifs
      · rfl
      · exact congrArg (some next :: ·) (ih _ _ _ ((h.expand hexpand).drawn source))

/-- At every draw the pool is what has been listed and not been left since, and a candidate is
drawn from it. -/
theorem draws_journal (h : Ongoing l left pool x) {i : Nat} {draw : Draw}
    (hi : (journal clock epsilon steps time pivot pool x).draws[i]? = some draw) :
    Current l (left ++ pivot :: (course clock epsilon steps time pivot pool x).drawn.take i)
        draw.pool draw.state.space ∧ ∃ next ∈ draw.pool.keys, draw.choice = some next := by
  induction steps generalizing left time pivot pool x i with
  | zero => cases hi
  | succ steps ih =>
    unfold journal at hi
    unfold course
    rcases hturn : turn epsilon pivot pool x with ⟨ending, y⟩ | ⟨next, last, y⟩ <;>
      rw [hturn] at hi
    · dsimp only at hi
      rw [drawIn_ended hturn h.current.finite] at hi
      cases hi
    · obtain ⟨z, source, hexpand, hnext, hdraw, rfl⟩ := drawIn_drawn hturn
      dsimp only at hi ⊢
      have hfirst : ∀ drawn : List Nat, Current l (left ++ pivot :: drawn.take 0) last z.space ∧
          ∃ k ∈ last.keys, some next = some k :=
        fun _ => ⟨(h.expand hexpand).current, next, hnext, rfl⟩
      rw [hdraw] at hi
      split_ifs at hi ⊢
      · cases i with
        | zero =>
          cases hi
          exact hfirst _
        | succ i => cases hi
      · cases i with
        | zero =>
          cases hi
          exact hfirst _
        | succ i =>
          have hrest := ih _ _ _ ((h.expand hexpand).drawn source) hi
          rwa [List.append_assoc] at hrest

theorem tracked_journal (h : Ongoing l left pool x) (ht : Tracked (left ++ [pivot]) x) :
    (∀ (i : Nat) (draw : Draw),
      (journal clock epsilon steps time pivot pool x).draws[i]? = some draw →
      Tracked (left ++ pivot :: (course clock epsilon steps time pivot pool x).drawn.take i)
        draw.state) ∧
    Tracked (left ++ pivot :: (course clock epsilon steps time pivot pool x).drawn)
      (course clock epsilon steps time pivot pool x).last := by
  induction steps generalizing left time pivot pool x with
  | zero =>
    refine ⟨fun i draw hi => ?_, ht⟩
    cases hi
  | succ steps ih =>
    have hexpanded := keeps_expand (steady_foremost (left ++ [pivot])) pivot pool
    unfold journal course
    rcases hturn : turn epsilon pivot pool x with ⟨ending, y⟩ | ⟨next, last, y⟩
    · dsimp only
      rw [drawIn_ended hturn h.current.finite]
      refine ⟨fun i draw hi => ?_, ?_⟩
      · cases hi
      rcases turn_ended hturn with ⟨failure, -, hexpand⟩ | ⟨-, last, z, source, hexpand, rfl, -⟩
      · exact hexpanded.of_run hexpand ht
      · have hz : Tracked (left ++ [pivot]) z := hexpanded.of_run hexpand ht
        exact hz
    · obtain ⟨z, source, hexpand, hnext, hdraw, rfl⟩ := drawIn_drawn hturn
      have hz : Tracked (left ++ [pivot]) z := hexpanded.of_run hexpand ht
      have hongoing := h.expand hexpand
      have hnow : Tracked (left ++ [pivot] ++ [next]) { z with
          checker := z.checker.count Counters.draw
          progress := z.progress.track z.space next
          source } := hz.track (hongoing.current.settled next hnext)
      dsimp only
      rw [hdraw]
      split_ifs
      · refine ⟨fun i draw hi => ?_, ?_⟩
        · cases i with
          | zero =>
            cases hi
            exact hz
          | succ i => cases hi
        · rw [List.append_assoc] at hnow
          exact hnow
      · obtain ⟨hdraws, hlast⟩ := ih (time + 1) next last (hongoing.drawn source) hnow
        rw [List.append_assoc] at hlast
        refine ⟨fun i draw hi => ?_, hlast⟩
        cases i with
        | zero =>
          cases hi
          exact hz
        | succ i =>
          have hrest := hdraws i draw hi
          rwa [List.append_assoc] at hrest

theorem checked_journal (h : Scoring l x) :
    ChecksOnce (journal clock epsilon steps time pivot pool x).checked x
      (course clock epsilon steps time pivot pool x).last := by
  induction steps generalizing time pivot pool x with
  | zero => exact .none rfl fun _ h => h
  | succ steps ih =>
    obtain ⟨honce, hsettled⟩ := checking_expand pivot pool h
    unfold journal course
    rcases hturn : turn epsilon pivot pool x with ⟨ending, y⟩ | ⟨next, last, y⟩
    · rcases turn_ended hturn with ⟨failure, -, hexpand⟩ | ⟨-, last, z, source, hexpand, rfl, -⟩ <;>
        rw [hexpand] at honce
      · exact honce
      · exact ⟨honce.nodup, honce.fresh, honce.counted, honce.kept⟩
    · obtain ⟨z, source, hexpand, -, rfl⟩ := turn_drawn hturn
      have hz : Scoring l z := (keeps_expand (steady_scoring l) pivot pool).of_run hexpand h
      rw [hexpand] at honce
      have hsettled := hsettled last z hexpand
      have hdrawn : ChecksOnce (checkedIn pivot pool x) x { z with
          checker := z.checker.count Counters.draw
          progress := z.progress.track z.space next
          source } := ⟨honce.nodup, honce.fresh, honce.counted, honce.kept⟩
      dsimp only
      split_ifs
      · exact ⟨hdrawn.nodup, hdrawn.fresh, hdrawn.counted, hdrawn.kept⟩
      · have hrest := ih (time + 1) next last (x := { z with
          checker := z.checker.count Counters.draw
          progress := z.progress.track z.space next
          source }) ⟨hz.lattice,
            (z.progress.track_objective z.space next).trans hz.objective⟩
        exact hdrawn.append hsettled hrest

end

/-! ## Traversals -/

section
variable (clock : Nat → Nat) (epsilon : Float) (steps : Nat) {x : Exploration} {l : Lattice}

theorem journalFromTop_cases (hl : x.space.lattice = l) :
    (∃ failure y, run (assureChecked l.top) x = (.error failure, y) ∧
      courseFromTop clock epsilon steps x = ⟨[], .failed failure, y⟩ ∧
      journalFromTop clock epsilon steps x = ⟨[], unsettled l.top x⟩) ∨
    ∃ y z, run (assureChecked l.top) x = (.ok (), y) ∧
      z = { y with progress := y.progress.track y.space l.top } ∧
      courseFromTop clock epsilon steps x = course clock epsilon steps 0 l.top [] z ∧
      journalFromTop clock epsilon steps x =
        ⟨(journal clock epsilon steps 0 l.top [] z).draws,
          unsettled l.top x ++ (journal clock epsilon steps 0 l.top [] z).checked⟩ := by
  unfold journalFromTop courseFromTop
  simp only [hl]
  rcases hrun : run (assureChecked l.top) x with ⟨failure | _, y⟩
  · exact Or.inl ⟨failure, y, rfl, rfl, rfl⟩
  · exact Or.inr ⟨y, _, rfl, rfl, rfl, rfl⟩

section
variable (h : Scoring l x)
include h

omit clock epsilon steps in
theorem Scoring.top {y : Exploration} (hrun : run (assureChecked l.top) x = (.ok (), y)) :
    Ongoing l [] [] { y with progress := y.progress.track y.space l.top } := by
  have hy : Scoring l y := ((steady_scoring l).assureChecked l.top).of_run hrun h
  exact ⟨⟨hy.lattice, (y.progress.track_objective y.space l.top).trans hy.objective⟩,
    current_nil l y.space⟩

theorem choices_journalFromTop :
    (journalFromTop clock epsilon steps x).draws.map Draw.choice =
      (courseFromTop clock epsilon steps x).drawn.map some := by
  rcases journalFromTop_cases clock epsilon steps h.lattice with
    ⟨failure, y, -, hcourse, hjournal⟩ | ⟨y, z, hrun, rfl, hcourse, hjournal⟩ <;>
    rw [hcourse, hjournal]
  · rfl
  · exact choices_journal clock epsilon steps 0 l.top [] (h.top hrun)

theorem draws_journalFromTop {i : Nat} {draw : Draw}
    (hi : (journalFromTop clock epsilon steps x).draws[i]? = some draw) :
    Current l (l.top :: (courseFromTop clock epsilon steps x).drawn.take i) draw.pool
        draw.state.space ∧ ∃ next ∈ draw.pool.keys, draw.choice = some next := by
  rcases journalFromTop_cases clock epsilon steps h.lattice with
    ⟨failure, y, -, hcourse, hjournal⟩ | ⟨y, z, hrun, rfl, hcourse, hjournal⟩ <;>
    rw [hjournal] at hi <;> rw [hcourse]
  · cases hi
  · exact draws_journal clock epsilon steps 0 l.top [] (h.top hrun) hi

theorem checked_journalFromTop : ChecksOnce (journalFromTop clock epsilon steps x).checked x
    (courseFromTop clock epsilon steps x).last := by
  have htop := checksOnce_assureChecked h l.top_lt_size
  rcases journalFromTop_cases clock epsilon steps h.lattice with
    ⟨failure, y, hrun, hcourse, hjournal⟩ | ⟨y, z, hrun, rfl, hcourse, hjournal⟩ <;>
    rw [hcourse, hjournal] <;> rw [hrun] at htop
  · exact htop
  · have hchecked : ChecksOnce (unsettled l.top x) x
        { y with progress := y.progress.track y.space l.top } :=
      ⟨htop.nodup, htop.fresh, htop.counted, htop.kept⟩
    have hsettled := settled_of_unsettled hrun h.objective
    exact hchecked.append hsettled (checked_journal clock epsilon steps 0 l.top []
      (h.top hrun).scoring)

theorem tracked_journalFromTop (ht : Tracked [] x) :
    (∀ (i : Nat) (draw : Draw), (journalFromTop clock epsilon steps x).draws[i]? = some draw →
      Tracked (l.top :: (courseFromTop clock epsilon steps x).drawn.take i) draw.state) ∧
    ((∀ failure, (courseFromTop clock epsilon steps x).ending ≠ .failed failure) →
      Tracked (l.top :: (courseFromTop clock epsilon steps x).drawn)
        (courseFromTop clock epsilon steps x).last) := by
  rcases journalFromTop_cases clock epsilon steps h.lattice with
    ⟨failure, y, -, hcourse, hjournal⟩ | ⟨y, z, hrun, rfl, hcourse, hjournal⟩ <;>
    rw [hcourse, hjournal]
  · exact ⟨fun _ _ hi => (nomatch hi), fun hending => absurd rfl (hending failure)⟩
  · have hy : Tracked [] y := ((steady_foremost []).assureChecked l.top).of_run hrun ht
    have htracked := hy.track (settled_assureChecked hrun h.objective)
    obtain ⟨hdraws, hlast⟩ := tracked_journal clock epsilon steps 0 l.top [] (h.top hrun) htracked
    exact ⟨hdraws, fun _ => hlast⟩

end
end

end PrivateWalk

/-- At every draw of a walk, the pool holds what some transformation expanded so far has as a
predecessor and what has not been expanded since then, with certified scores, and one of these
candidates is drawn. Nothing is checked twice. If the search is new, its optimum is the first
of the best among the top and all that was drawn so far. -/
theorem Search.walk_invariant {s : Search} {epsilon perStep : Float} {steps : Nat}
    (hplan : s.plan = .privateWalk epsilon perStep steps)
    (hobjective : s.progress.objective = .score) (clock : Nat → Nat) (checker : Checker)
    (space : SolutionSpace) :
    let l := space.lattice
    let course := PrivateWalk.courseFromTop clock perStep steps (s.begun checker space)
    let journal := PrivateWalk.journalFromTop clock perStep steps (s.begun checker space)
    ((s.traverse clock checker space).1 = course.ending.answer ∧
      s.ended clock checker space = course.last ∧
      journal.draws.map PrivateWalk.Draw.choice = course.drawn.map some) ∧
    (∀ (i : Nat) (draw : PrivateWalk.Draw), journal.draws[i]? = some draw →
      PrivateWalk.Current l (l.top :: course.drawn.take i) draw.pool draw.state.space ∧
        ∃ next ∈ draw.pool.keys, draw.choice = some next) ∧
    (journal.checked.Nodup ∧ course.last.checker.counters.checks =
      checker.counters.checks + journal.checked.length) ∧
    (s.progress.optimum = none →
      (∀ (i : Nat) (draw : PrivateWalk.Draw), journal.draws[i]? = some draw →
        draw.state.space.Foremost (l.top :: course.drawn.take i)
          draw.state.progress.optimum) ∧
      ((∀ failure, course.ending ≠ .failed failure) →
        course.last.space.Foremost (l.top :: course.drawn) course.last.progress.optimum)) := by
  intro l course journal
  obtain ⟨hanswer, hended⟩ := PrivateWalk.ended_course hplan clock checker space
  have hbegun : s.begun checker space =
      ⟨s.progress.start, checker.setRetention .all, space.setPredictable false, s.source⟩ := by
    unfold begun
    rw [hplan]
  have hscoring : PrivateWalk.Scoring l (s.begun checker space) := by
    rw [hbegun]
    exact ⟨rfl, hobjective⟩
  have honce := PrivateWalk.checked_journalFromTop clock perStep steps hscoring
  have hcounted : PrivateWalk.checks (s.begun checker space) = checker.counters.checks := by
    rw [hbegun]
    rfl
  refine ⟨⟨hanswer, hended, PrivateWalk.choices_journalFromTop clock perStep steps hscoring⟩,
    fun i draw hi => PrivateWalk.draws_journalFromTop clock perStep steps hscoring hi,
    ⟨honce.nodup, hcounted ▸ honce.counted⟩, fun hnone => ?_⟩
  have hnew : PrivateWalk.Tracked [] (s.begun checker space) := by
    have hoptimum : s.progress.start.optimum = none := hnone
    rw [hbegun]
    refine ⟨hobjective, rfl, ?_⟩
    dsimp only
    rw [hoptimum]
    exact SolutionSpace.foremost_nil _
  obtain ⟨hdraws, hlast⟩ :=
    PrivateWalk.tracked_journalFromTop clock perStep steps hscoring hnew
  exact ⟨fun i draw hi => (hdraws i draw hi).2.2, fun hending => (hlast hending).2.2⟩

open Sample in
/-- The walk of the sample draws once, the bottom, when only the top has been expanded. Both are
checked, and the top is the optimum before and after. -/
theorem Search.walk_invariant_sample : ∃ draw : PrivateWalk.Draw,
    draw.choice = some 0 ∧ 0 ∈ draw.pool.keys ∧
      PrivateWalk.Current lattice [1] draw.pool draw.state.space ∧
      draw.state.space.Foremost [1] draw.state.progress.optimum ∧
      (walk.ended surroundings.clock (checker keeping)
        (.ofLattice lattice)).space.Foremost [1, 0] (some 1) := by
  obtain ⟨⟨-, hended, hchoices⟩, hdraws, -, hnew⟩ :=
    walk_invariant (show walk.plan = .privateWalk 1.0 perStep 5 from rfl) rfl surroundings.clock
      (checker keeping) (.ofLattice lattice)
  obtain ⟨hforemost, hlast⟩ := hnew rfl
  rw [course_eq] at hended hchoices hdraws hforemost hlast
  obtain ⟨draw, hjournal, hchoice⟩ := List.map_eq_singleton_iff.mp hchoices
  have hfirst : (PrivateWalk.journalFromTop surroundings.clock perStep 5
      (walk.begun (checker keeping) (.ofLattice lattice))).draws[0]? = some draw := by
    rw [hjournal]
    rfl
  obtain ⟨hcurrent, next, hnext, hdrawn⟩ := hdraws 0 draw hfirst
  cases hchoice.symm.trans hdrawn
  have hoptimum : (PrivateWalk.halt (run (PrivateWalk.expand 0 atBottom.1)
      atBottom.2).2).progress.optimum = some 1 := by decide +kernel
  have hlast := hlast fun failure h => nomatch h
  rw [hoptimum] at hlast
  rw [hended]
  exact ⟨draw, hchoice, hnext, hcurrent, hforemost 0 draw hfirst, hlast⟩

end Recoding
