import ReluAbstraction.Scalar

/-!
# Linear programs

A linear program asks for a point of `n` coordinates within bounds that keeps a number of linear expressions within
limits. An absent bound means that there is none on that side.
-/

namespace ReluAbstraction

/-- The constraint `lower ≤ Σ coefficient · x ≤ upper`. -/
structure LinearRow (α : Type) (n : Nat) where
  /-- Terms of the expression; a variable may stand in several. -/
  coefficients : List (Fin n × α)
  /-- Lower limit. -/
  lower : Option α
  /-- Upper limit. -/
  upper : Option α

/-- A vector with one entry exchanged. -/
def assign {β : Type} {n : Nat} (v : Vector β n) (i : Fin n) (x : β) : Vector β n := v.set i.val x i.isLt

/-- Bounds on `n` variables and constraints on linear expressions. -/
structure LinearProgram (α : Type) (n : Nat) where
  /-- Lower bounds. -/
  lower : Vector (Option α) n
  /-- Upper bounds. -/
  upper : Vector (Option α) n
  /-- Constraints. -/
  rows : List (LinearRow α n)

namespace LinearProgram

variable {α : Type} {n : Nat}

/-- A program without bounds and constraints. -/
def unconstrained : LinearProgram α n := ⟨Vector.replicate n none, Vector.replicate n none, []⟩

/-- Adds a constraint. -/
def addRow (p : LinearProgram α n) (coefficients : List (Fin n × α)) (lower upper : Option α) :
    LinearProgram α n :=
  { p with rows := p.rows ++ [⟨coefficients, lower, upper⟩] }

variable [Scalar α]

/-- The tighter of a lower bound and `x`; a number that differs from itself bounds nothing. -/
def raiseBound (bound : Option α) (x : α) : Option α :=
  match bound with
  | some l => some (Scalar.larger l x)
  | none => if Scalar.isNaN x then none else some x

/-- The tighter of an upper bound and `x`; a number that differs from itself bounds nothing. -/
def lowerBound (bound : Option α) (x : α) : Option α :=
  match bound with
  | some u => some (Scalar.smaller u x)
  | none => if Scalar.isNaN x then none else some x

/-- Raises the lower bound of a variable to at least `x`. -/
def tightenLower (p : LinearProgram α n) (i : Fin n) (x : α) : LinearProgram α n :=
  { p with lower := assign p.lower i (raiseBound (p.lower.get i) x) }

/-- Lowers the upper bound of a variable to at most `x`. -/
def tightenUpper (p : LinearProgram α n) (i : Fin n) (x : α) : LinearProgram α n :=
  { p with upper := assign p.upper i (lowerBound (p.upper.get i) x) }

end LinearProgram

end ReluAbstraction
