import ReluAbstraction.Scalar
import ReluAbstraction.Decimal.Layout

/-!
# Doubles as scalars

Infinities have nothing beyond them, and neither order test holds of a value that is not a number.
-/

namespace ReluAbstraction

instance : Scalar Float where
  zero := 0.0
  one := 1.0
  add := Float.add
  sub := Float.sub
  mul := Float.mul
  div := Float.div
  neg := Float.neg
  lt := instLTFloat.lt
  le := instLEFloat.le
  beq := Float.beq
  ofScientific := Float.ofScientific
  decideLt := Float.decLt
  decideLe := Float.decLe
  roomBelow x := decide (-1.0 / 0.0 < x)
  roomAbove x := decide (x < 1.0 / 0.0)
  text := Layout.message

end ReluAbstraction
