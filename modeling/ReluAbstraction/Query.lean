import ReluAbstraction.Error
import ReluAbstraction.Scalar
import ReluAbstraction.SortedMap

/-!
# Queries

A query asks for values of its variables that meet bounds, linear equations and ReLU constraints. Equations and ReLUs are
removed by value; the last one then takes the freed place.
-/

namespace ReluAbstraction

/-- Values of variables. -/
abbrev Assignment (α : Type) := SortedMap VarId α

/-- Value of a variable; an unassigned one is zero. -/
def Assignment.value {α : Type} [Scalar α] (a : Assignment α) (v : VarId) : α := (a.get? v).getD 0

/-- One term of an equation. -/
structure Addend (α : Type) where
  /-- Factor of the variable. -/
  coefficient : α
  /-- The variable. -/
  var : VarId
deriving BEq, DecidableEq, Repr

/-- The equation `Σ coefficient · var = scalar`. -/
structure Equation (α : Type) where
  /-- Terms of the left side. -/
  addends : List (Addend α)
  /-- Right side. -/
  scalar : α
deriving BEq, DecidableEq, Repr

namespace Equation

variable {α : Type} [Scalar α]

/-- Value of the left side. -/
def evaluate (e : Equation α) (a : Assignment α) : α :=
  Scalar.sum (e.addends.map fun t => t.coefficient * a.value t.var)

end Equation

/-- The constraint `output = max(0, input)`. -/
structure Relu where
  /-- Variable before the ReLU. -/
  input : VarId
  /-- Variable after the ReLU. -/
  output : VarId
deriving DecidableEq, Repr

/-- Drops the first element that satisfies `p` and moves the last element into its place; none if there is no such
element. -/
def swapRemove? {β : Type} (p : β → Bool) : List β → Option (List β)
  | [] => none
  | x :: rest =>
    if p x then
      match rest.getLast? with
      | some last => some (last :: rest.dropLast)
      | none => some []
    else (swapRemove? p rest).map (x :: ·)

/-- Bounds, equations and ReLU constraints over declared variables. -/
structure Query (α : Type) where
  /-- Number of declared variables; they are numbered from 0. -/
  varCount : Nat
  /-- Lower bounds. -/
  lower : SortedMap VarId α
  /-- Upper bounds. -/
  upper : SortedMap VarId α
  /-- Equations. -/
  equations : List (Equation α)
  /-- ReLU constraints. -/
  relus : List Relu
deriving DecidableEq

namespace Query

variable {α : Type}

/-- A query without variables and constraints. -/
def empty : Query α := ⟨0, .empty, .empty, [], []⟩

instance : Inhabited (Query α) := ⟨empty⟩

/-- Sets a lower bound. -/
def setLower (q : Query α) (v : VarId) (x : α) : Query α := { q with lower := q.lower.insert v x }

/-- Sets an upper bound. -/
def setUpper (q : Query α) (v : VarId) (x : α) : Query α := { q with upper := q.upper.insert v x }

/-- Drops both bounds of a variable. -/
def removeBounds (q : Query α) (v : VarId) : Query α :=
  { q with lower := q.lower.erase v, upper := q.upper.erase v }

/-- Adds an equation. -/
def addEquation (q : Query α) (e : Equation α) : Query α := { q with equations := q.equations ++ [e] }

/-- Removes one equation equal to `e`, if there is one. -/
def removeEquation? [BEq α] (q : Query α) (e : Equation α) : Option (Query α) :=
  (swapRemove? (· == e) q.equations).map fun equations => { q with equations }

/-- Removes one equation equal to `e`, or nothing. -/
def removeEquation [BEq α] (q : Query α) (e : Equation α) : Query α := (q.removeEquation? e).getD q

/-- Adds a ReLU constraint. -/
def addRelu (q : Query α) (r : Relu) : Query α := { q with relus := q.relus ++ [r] }

/-- Removes a ReLU constraint, if it is there. -/
def removeRelu? (q : Query α) (r : Relu) : Option (Query α) :=
  (swapRemove? (· = r) q.relus).map fun relus => { q with relus }

/-- Removes a ReLU constraint, or nothing. -/
def removeRelu (q : Query α) (r : Relu) : Query α := (q.removeRelu? r).getD q

variable [Scalar α]

/-- Whether an assignment meets every constraint within the tolerance. -/
def isSatisfiedBy (q : Query α) (a : Assignment α) (tolerance : Tolerance α := .standard) : Bool :=
  let eps := tolerance.feasibility
  (q.lower.toList.all fun (v, l) => l - eps ≤ a.value v) &&
  (q.upper.toList.all fun (v, u) => a.value v ≤ u + eps) &&
  (q.equations.all fun e => Scalar.magnitude (e.evaluate a - e.scalar) ≤ eps) &&
  (q.relus.all fun r => Scalar.magnitude (a.value r.output - Scalar.rectify (a.value r.input)) ≤ eps)

end Query

end ReluAbstraction
