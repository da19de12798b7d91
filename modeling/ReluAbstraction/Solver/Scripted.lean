import ReluAbstraction.Solver

/-!
# Scripted solvers

A solver that gives prepared replies, for runs in which the answers are known beforehand.
-/

namespace ReluAbstraction

/-- A prepared reply. -/
inductive Reply (α : Type) where
  /-- Values for the variables; no values mean that there is no solution. -/
  | values (assignment : Assignment α)
  /-- The solver's time is spent. -/
  | timeout
  /-- The solver fails with a text. -/
  | failure (text : String)

/-- Gives the prepared replies one after another, and after the last one that there is no solution. -/
def Solver.scripted {α : Type} : Solver (List (Reply α)) α where
  solve _ _ := do
    match ← get with
    | [] => return ⟨.empty, .zero⟩
    | reply :: rest =>
      set rest
      match reply with
      | .values assignment => return ⟨assignment, .zero⟩
      | .timeout => throw .solverTimeout
      | .failure text => throw (.solver (.reported text))

end ReluAbstraction
