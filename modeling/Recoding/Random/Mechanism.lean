import Recoding.Random.Source

/-!
# The exponential mechanism

A candidate is drawn with probability proportional to `exp (ε * score / 2)`. Scores are
shifted by their maximum, which changes no probability and keeps every weight at most 1.
-/

namespace Recoding

/-- A randomized choice with a fixed privacy budget per draw. -/
structure Mechanism where
  /-- The budget of one draw. -/
  epsilon : Float
  source : RandomSource

namespace Mechanism

/-- The key whose weight covers the target when the weights are laid end to end, and the
last key if the target lies beyond all of them. -/
def locate {κ α : Type} [LT α] [DecidableLT α] [Sub α] (target : α) :
    List (κ × α) → Option κ
  | [] => none
  | (key, weight) :: rest =>
    if target < weight then some key else (locate (target - weight) rest).or (some key)

/-- The highest score; negative infinity without candidates. -/
def highest {κ : Type} (pool : List (κ × Float)) : Float :=
  (pool.map Prod.snd).foldl Binary64.larger (Binary64.infinity true)

def weights {κ : Type} (epsilon : Float) (pool : List (κ × Float)) : List (κ × Float) :=
  let top := highest pool
  pool.map fun (key, score) => (key, (epsilon * (score - top) / 2.0).exp)

/-- Draws one of the candidates, which are in key order. Without a finite highest score
there is no draw, and no randomness is used. -/
def select {κ : Type} (m : Mechanism) (pool : List (κ × Float)) : Option κ × Mechanism :=
  if (highest pool).isFinite then
    let weighted := weights m.epsilon pool
    let total := Binary64.sum (weighted.map Prod.snd)
    let (word, source) := m.source.next
    (locate (RandomSource.unit word * total) weighted, { m with source })
  else (none, m)

end Mechanism
end Recoding
