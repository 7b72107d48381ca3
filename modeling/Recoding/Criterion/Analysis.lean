import Recoding.Criterion.Basic
import Recoding.Grouping.Table

/-!
# Analyses of tables

A table is judged along the links in the order of filling, criterion by criterion. The first
class that is rejected is flagged where it is, which ends the analysis.
-/

namespace Recoding.ClassTable

def passAll (t : ClassTable) : ClassTable :=
  { t with
    slots := t.slots.map fun s => { s with entry := { s.entry with passed := true } }
    acyclic := t.acyclic.map Array.size_map fun i s hs => by
      rw [Array.getElem?_map] at hs
      obtain ⟨own, hown, rfl⟩ := Option.map_eq_some_iff.mp hs
      exact ⟨own, hown, rfl, rfl⟩ }

def reject (t : ClassTable) (i : Nat) : ClassTable := t.modify i fun e => { e with passed := false }

/-- Whether a criterion accepts the classes that are chained from a slot; classes without records
in the research subset are passed over. A class that is rejected is flagged. -/
def judgeFrom (t : ClassTable) (levels : List Nat) (c : Criterion) (cursor : Option Nat) :
    Except Failure (Bool × ClassTable) :=
  match cursor with
  | none => .ok (true, t)
  | some i =>
    match h : t.slots[i]? with
    | none => .error .outOfRange
    | some s =>
      have := And.intro (Array.getElem?_eq_some_iff.mp h).1 (t.acyclic.lt_following i s h)
      if s.entry.count = 0 then t.judgeFrom levels c s.following
      else do
        if ← c.admits levels s.entry then t.judgeFrom levels c s.following
        else return (false, t.reject i)
termination_by cursor.elim 0 (t.slots.size + 1 - ·)
decreasing_by
  all_goals
    obtain ⟨hi, hlt⟩ := this
    cases hs : s.following with
    | none =>
      simp
      omega
    | some j =>
      have hj := hlt j hs
      simp
      omega

/-- Whether all criteria accept all classes; the first one that does not is the last one asked. -/
def judge (t : ClassTable) (levels : List Nat) :
    List Criterion → Except Failure (Bool × ClassTable)
  | [] => .ok (true, t)
  | c :: rest => do
    let (accepted, judged) ← t.judgeFrom levels c t.first
    if accepted then judged.judge levels rest else return (false, judged)

/-- Judges the table anew, whatever its flags are. -/
def analyze (t : ClassTable) (levels : List Nat) (criteria : List Criterion) :
    Except Failure (Bool × ClassTable) :=
  t.passAll.judge levels criteria

end Recoding.ClassTable
