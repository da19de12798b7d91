import ReluAbstraction.Scalar

/-!
# Exact rationals as scalars

Over the rationals the engine's arithmetic is exact, and every number has room on both sides.
-/

namespace ReluAbstraction

instance : Scalar Rat where
  zero := Rat.ofInt 0
  one := Rat.ofInt 1
  add := Rat.add
  sub := Rat.sub
  mul := Rat.mul
  div := Rat.div
  neg := Rat.neg
  lt a b := Rat.blt a b = true
  le a b := Rat.blt b a = false
  beq a b := decide (a = b)
  ofScientific := Rat.ofScientific
  decideLt _ _ := inferInstance
  decideLe _ _ := inferInstance
  roomBelow _ := true
  roomAbove _ := true
  text q := if q.den = 1 then toString q.num else toString q.num ++ "/" ++ toString q.den

end ReluAbstraction
