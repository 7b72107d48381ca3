/-!
# Payoffs of publishing a record

The publisher gains from a published record in proportion to what is left of its
information, and loses when it is re-identified. An adversary attacks only if that pays.
-/

namespace Recoding

/-- The amounts at stake for one record. -/
structure Payoffs where
  publisherBenefit : Float
  publisherLoss : Float
  adversaryGain : Float
  adversaryCost : Float
deriving Repr

namespace Payoffs

def standard : Payoffs := ⟨1200.0, 300.0, 300.0, 4.0⟩

def adversaryPayout (p : Payoffs) (success : Float) : Float :=
  p.adversaryGain * success - p.adversaryCost

def publisherPayout (p : Payoffs) (loss success : Float) : Float :=
  let gain := p.publisherBenefit * (1.0 - loss)
  if 0.0 < p.adversaryPayout success then gain - p.publisherLoss * success else gain

def isSound (p : Payoffs) : Bool :=
  [p.publisherBenefit, p.publisherLoss, p.adversaryGain, p.adversaryCost].all fun x =>
    x.isFinite && !(x < 0.0)

end Payoffs
end Recoding
