/-!
# Scalars

The engine is written once for every number type that offers the operations below. Doubles run it; exact rationals give
it its mathematical reading. Nothing beyond these operations is used, and always in the same order, so that both readings
follow the same program.
-/

namespace ReluAbstraction

/-- Numbers the engine computes with. Equality is the type's own test, under which a number may differ from itself; such
a number is treated as missing by `Scalar.larger` and `Scalar.smaller`. -/
class Scalar (α : Type) extends Zero α, One α, Add α, Sub α, Mul α, Div α, Neg α, LT α, LE α, BEq α,
    OfScientific α where
  /-- The strict order can be tested. -/
  decideLt : ∀ a b : α, Decidable (a < b)
  /-- The order can be tested. -/
  decideLe : ∀ a b : α, Decidable (a ≤ b)
  /-- Whether the type has a number below the given one. -/
  roomBelow : α → Bool
  /-- Whether the type has a number above the given one. -/
  roomAbove : α → Bool
  /-- Text of a number in a message. -/
  text : α → String

namespace Scalar

variable {α : Type} [Scalar α]

instance (a b : α) : Decidable (a < b) := decideLt a b

instance (a b : α) : Decidable (a ≤ b) := decideLe a b

/-- Whether `x` differs from itself. -/
def isNaN (x : α) : Bool := !(x == x)

/-- The larger of two numbers; a number that differs from itself gives way to the other. -/
def larger (a b : α) : α := if a < b then b else if a == a then a else b

/-- The smaller of two numbers; a number that differs from itself gives way to the other. -/
def smaller (a b : α) : α := if b < a then b else if a == a then a else b

/-- Absolute value. -/
def magnitude (x : α) : α := if x < 0 then -x else x

/-- The ReLU function. -/
def rectify (x : α) : α := larger x 0

/-- Sum from left to right. -/
def sum (xs : List α) : α := xs.foldl (· + ·) 0

/-- Sum of products, from left to right, over the shorter of the two lists. -/
def dot (xs ys : List α) : α := sum (List.zipWith (· * ·) xs ys)

end Scalar

/-- Slack granted when numbers are compared. -/
structure Tolerance (α : Type) where
  /-- Distance by which a value may leave a bound of a linear program. -/
  bound : α
  /-- Size up to which a tableau coefficient counts as zero. -/
  pivot : α
  /-- Distance by which a search point may miss a ReLU. -/
  relu : α
  /-- Distance by which an assignment may miss a constraint of a query, or an output its threshold. -/
  feasibility : α

namespace Tolerance

variable {α : Type} [Scalar α]

/-- The tolerances in use. -/
def standard : Tolerance α := ⟨1e-9, 1e-12, 1e-7, 1e-6⟩

end Tolerance

end ReluAbstraction
