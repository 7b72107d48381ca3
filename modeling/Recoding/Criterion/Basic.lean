import Recoding.Criterion.Payoff
import Recoding.Dataset
import Recoding.Grouping.Basic
import Recoding.Report.Element

/-!
# Privacy criteria

A criterion accepts or rejects single equivalence classes. A grouping is anonymous if
every criterion accepts every class with records in the research subset.
-/

namespace Recoding

/-- What the adversary knows about the target. -/
inductive Attacker where
  /-- The target is known to be in the data. -/
  | prosecutor
  /-- The target may or may not be in the data. Without a population to compare with,
  the risk is that of the prosecutor. -/
  | journalist
deriving DecidableEq, Repr, Inhabited

def Attacker.title : Attacker → String
  | prosecutor => "Prosecutor"
  | journalist => "Journalist"

inductive CriterionChoice where
  /-- Selects the research subset, given by its records. -/
  | inclusion (subset : Option (List Nat))
  | kAnonymity (k : Nat)
  | distinctDiversity (l : Nat)
  | profitability (attacker : Attacker) (payoffs : Payoffs)
deriving Repr

inductive Criterion where
  /-- Accepts every class. -/
  | inclusion (subsetSize : Option Nat)
  /-- At least `k` records. -/
  | kAnonymity (k : Nat)
  /-- At least `l` distinct sensitive values. -/
  | distinctDiversity (l : Nat)
  /-- Publishing the class pays; `floor` is the product of the leaf shares. -/
  | profitability (attacker : Attacker) (payoffs : Payoffs)
      (shares : List DomainShare) (floor : Float)
deriving Repr

/-- What a criterion needs to know about a class. -/
structure Requirements where
  /-- The records in the research subset. -/
  counter : Bool
  /-- All records. -/
  totalCounter : Bool
  /-- The distribution of sensitive values. -/
  distribution : Bool
deriving DecidableEq, Repr

namespace Criterion

def ofChoice : CriterionChoice → Criterion
  | .inclusion _ => inclusion none
  | .kAnonymity k => kAnonymity k
  | .distinctDiversity l => distinctDiversity l
  | .profitability attacker payoffs => profitability attacker payoffs [] 1.0

/-- The criterion with everything it needs to know about the data. -/
def prepare (c : Criterion) (d : Dataset) : Except Failure Criterion :=
  match c with
  | inclusion _ => .ok (inclusion (some d.subsetSize))
  | kAnonymity k => if k = 0 then .error .zeroGroupSize else .ok (kAnonymity k)
  | distinctDiversity l =>
    if l = 0 then .error .zeroDiversity
    else if d.sensitive.isNone then .error .diversityWithoutSensitive
    else .ok (distinctDiversity l)
  | profitability attacker payoffs _ _ =>
    .ok (profitability attacker payoffs d.shares (DomainShare.leafProduct d.shares))

/-- The probability that an attack on a record of the class succeeds. -/
def successProbability (e : EquivalenceClass) : Float := 1.0 / Binary64.ofCount e.count

/-- Whether the criterion accepts a class generalized to the given levels. -/
def admits (c : Criterion) (levels : List Nat) (e : EquivalenceClass) :
    Except Failure Bool :=
  match c with
  | inclusion _ => .ok true
  | kAnonymity k => .ok (decide (k ≤ e.count))
  | distinctDiversity l =>
    .ok (match e.distribution with
      | some d => decide (l ≤ d.distinct)
      | none => false)
  | profitability _ payoffs shares floor =>
    if e.count = 0 then .ok false
    else do
      let loss ← Failure.found (DomainShare.loss? shares floor levels e.key)
      return 0.0 < payoffs.publisherPayout loss (successProbability e)

def requirements : Criterion → Requirements
  | inclusion _ => ⟨true, true, false⟩
  | kAnonymity _ => ⟨true, false, false⟩
  | distinctDiversity _ => ⟨true, false, true⟩
  | profitability .. => ⟨true, false, false⟩

/-- Whether a class that is accepted stays accepted when it grows. A payoff may shrink
with the information that is left, so profitability is not monotone. -/
def isMonotone : Criterion → Bool
  | inclusion _ => true
  | kAnonymity _ => true
  | distinctDiversity _ => true
  | profitability .. => false

def render : Criterion → Element
  | inclusion none => .titled "Record selection"
  | inclusion (some size) =>
    (Element.titled "Record selection").adding "Number of records" (toString size)
  | kAnonymity k => (Element.titled "k-Anonymity").adding "Threshold (k)" (toString k)
  | distinctDiversity l =>
    (Element.titled "Distinct l-diversity").adding "Threshold (l)" (toString l)
  | profitability attacker payoffs _ _ =>
    (((((Element.titled "Profitability").adding "Attacker model" attacker.title).adding
      "Adversary cost" (Decimal.plain payoffs.adversaryCost)).adding
      "Adversary gain" (Decimal.plain payoffs.adversaryGain)).adding
      "Publisher loss" (Decimal.plain payoffs.publisherLoss)).adding
      "Publisher benefit" (Decimal.plain payoffs.publisherBenefit)

/-- The place of the first class with records in the subset that the criterion rejects. -/
def firstRejected (c : Criterion) (levels : List Nat) :
    List EquivalenceClass → Except Failure (Option Nat)
  | [] => .ok none
  | e :: rest => do
    let accepted ← if e.count = 0 then .ok true else c.admits levels e
    if accepted then return (← c.firstRejected levels rest).map (· + 1)
    else return some 0

end Criterion

/-- The place of the first class that any criterion rejects, criterion by criterion. -/
def firstRejection (levels : List Nat) (classes : List EquivalenceClass) :
    List Criterion → Except Failure (Option Nat)
  | [] => .ok none
  | c :: rest => do
    match ← c.firstRejected levels classes with
    | some place => return some place
    | none => firstRejection levels classes rest

/-- Whether every criterion accepts every class, and the grouping with its verdict: all
classes passed, or all but the first one that was rejected. -/
def Grouping.analyze (g : Grouping) (levels : List Nat) (criteria : List Criterion) :
    Except Failure (Bool × Grouping) := do
  let passed := g.classes.map fun e => { e with passed := true }
  match ← firstRejection levels g.classes criteria with
  | none => return (true, { g with classes := passed })
  | some place =>
    return (false, { g with classes := passed.modify place fun e => { e with passed := false } })

end Recoding
