import ReluAbstraction.Category

/-!
# Reductions

Merging nodes folds several weights or biases into one number. Which fold is safe depends on the goal of the property and
on the category of the nodes; a `Policy` holds the choice for every category.
-/

namespace ReluAbstraction

/-- How several numbers become one. -/
inductive Reduction where
  /-- The largest. -/
  | max
  /-- The smallest. -/
  | min
  /-- Their sum. -/
  | sum
deriving DecidableEq, Repr, Inhabited

namespace Reduction

/-- Name of a reduction. -/
def name : Reduction → String
  | max => "max"
  | min => "min"
  | sum => "sum"

variable {α : Type} [Scalar α]

/-- Folds one more number in. -/
def combine : Reduction → α → α → α
  | max => Scalar.larger
  | min => Scalar.smaller
  | sum => (· + ·)

/-- Folds numbers from left to right; none for no numbers. -/
def reduce? (r : Reduction) : List α → Option α
  | [] => none
  | x :: xs => some (xs.foldl r.combine x)

end Reduction

/-- Side on which the abstraction has to stay of the network's output. -/
inductive Goal where
  /-- The property asks whether the output can get large. -/
  | maximize
  /-- The property asks whether the output can get small. -/
  | minimize
deriving DecidableEq, Repr, Inhabited

/-- Name of a goal. -/
def Goal.name : Goal → String
  | maximize => "maximize"
  | minimize => "minimize"

/-- Reductions by category. -/
structure Policy where
  /-- Folds the weights that enter the members of a destination arnode. -/
  incoming : Category → Reduction
  /-- Folds over the members of a source arnode. -/
  outgoing : Category → Reduction
  /-- Folds the biases of the members. -/
  bias : Category → Reduction

namespace Policy

/-- Policy for a goal. When maximizing, categories that raise the output take the larger incoming weight and the others
the smaller one; when minimizing it is the other way round. Outgoing weights and biases are summed. -/
def forGoal (goal : Goal) : Policy :=
  let (up, down) : Reduction × Reduction := match goal with
    | .maximize => (.max, .min)
    | .minimize => (.min, .max)
  { incoming := fun c => if c.isIncreasing? = some false then down else up
    outgoing := fun _ => .sum
    bias := fun _ => .sum }

/-- The same reductions for every category. -/
def uniform (incoming outgoing bias : Reduction) : Policy :=
  ⟨fun _ => incoming, fun _ => outgoing, fun _ => bias⟩

/-- Replaces the bias reduction of every category. -/
def withBias (p : Policy) (bias : Reduction) : Policy := { p with bias := fun _ => bias }

instance : Inhabited Policy := ⟨forGoal .maximize⟩

end Policy

end ReluAbstraction
