import ReluAbstraction.Query
import ReluAbstraction.Reduction

/-!
# Properties

A property names a region of one output and asks whether an admissible input leads there. When none does, a proof of that
is what the engine looks for.
-/

namespace ReluAbstraction

/-- A bound of a variable. -/
inductive Bound (α : Type) where
  /-- The variable is at least the value. -/
  | lower (value : α)
  /-- The variable is at most the value. -/
  | upper (value : α)
deriving DecidableEq, Repr

/-- Sets a bound of a variable. -/
def Query.setBound {α : Type} (q : Query α) (v : VarId) : Bound α → Query α
  | .lower x => q.setLower v x
  | .upper x => q.setUpper v x

/-- The question whether one output can reach a threshold: from below when maximizing, from above when minimizing. -/
structure Property (α : Type) where
  /-- Direction in which the output is pushed. -/
  goal : Goal
  /-- The output. -/
  output : Nat
  /-- Value to be reached. -/
  threshold : α
deriving DecidableEq, Repr

namespace Property

variable {α : Type}

/-- The bound that the property puts on the output's variable. -/
def bound (p : Property α) : Bound α :=
  match p.goal with
  | .maximize => .lower p.threshold
  | .minimize => .upper p.threshold

variable [Scalar α]

/-- Whether outputs lie in the region, within the tolerance. An output that is not there is never in it. -/
def isReachedBy (p : Property α) (outputs : List α) (tolerance : Tolerance α := .standard) : Bool :=
  match outputs[p.output]?, p.goal with
  | none, _ => false
  | some value, .maximize => decide (p.threshold - tolerance.feasibility ≤ value)
  | some value, .minimize => decide (value ≤ p.threshold + tolerance.feasibility)

end Property

end ReluAbstraction
