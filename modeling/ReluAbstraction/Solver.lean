import ReluAbstraction.Query

/-!
# Solvers

A solver answers queries. It may keep a state from one call to the next, and it is asked to answer with no values at all
exactly when a query has no solution.
-/

namespace ReluAbstraction

/-- What a caller asks of a solver besides the answer. -/
structure SolveOptions where
  /-- Milliseconds the solver may take. -/
  timeout : Option Nat
  /-- File that receives a record of the call. -/
  logPath : Option String
deriving DecidableEq, Repr, Inhabited

/-- Counts that a solver reports. -/
structure SolveStats where
  /-- Declared variables. -/
  varCount : Nat
  /-- Equations. -/
  equations : Nat
  /-- ReLU constraints. -/
  relus : Nat
  /-- Search nodes visited. -/
  explored : Nat
  /-- Search nodes without a feasible point. -/
  pruned : Nat
  /-- Whether values were found. -/
  sat : Bool
deriving DecidableEq, Repr

/-- Statistics of a call that did nothing. -/
def SolveStats.zero : SolveStats := ⟨0, 0, 0, 0, 0, false⟩

/-- A solver's answer. -/
structure SolveOutcome (α : Type) where
  /-- Values of the variables, empty if there is no solution. -/
  assignment : Assignment α
  /-- Counts of the call. -/
  stats : SolveStats

/-- Whether values were found. -/
def SolveOutcome.isSat {α : Type} (o : SolveOutcome α) : Bool := !o.assignment.isEmpty

/-- A solver over numbers `α` that keeps a state `σ`. -/
structure Solver (σ α : Type) where
  /-- Answers a query. -/
  solve : Query α → SolveOptions → Step σ (SolveOutcome α)

namespace Solver

variable {σ τ α : Type}

/-- The solver on the first part of a pair of states. -/
def first (solver : Solver σ α) : Solver (σ × τ) α where
  solve q options := Step.zoom (·.1) (fun s part => (part, s.2)) (solver.solve q options)

/-- The solver on the second part of a pair of states. -/
def second (solver : Solver τ α) : Solver (σ × τ) α where
  solve q options := Step.zoom (·.2) (fun s part => (s.1, part)) (solver.solve q options)

end Solver

/-- Records of solver calls, and the directories in which files can be opened for them. -/
structure Journal where
  /-- Directories that exist. -/
  directories : List String
  /-- Records by file, oldest first. -/
  records : List (String × SolveStats)
deriving DecidableEq, Repr

namespace Journal

/-- A journal without directories and records. -/
def empty : Journal := ⟨[], []⟩

/-- Directory that a path lies in; a bare name lies in `.`, and the empty path nowhere. -/
def directory? (path : String) : Option String :=
  if path.isEmpty then none
  else
    match (path.splitOn "/").dropLast with
    | [] => some "."
    | [""] => some "/"
    | parts => some ("/".intercalate parts)

/-- Appends a record to a file, which has to be in a directory that exists. -/
def append (j : Journal) (path : String) (stats : SolveStats) : Except Error Journal :=
  match directory? path with
  | some directory =>
    if directory ∈ j.directories then .ok { j with records := j.records ++ [(path, stats)] }
    else .error (.file .missing)
  | none => .error (.file .missing)

/-- Records of one file, oldest first. -/
def recordsOf (j : Journal) (path : String) : List SolveStats :=
  j.records.filterMap fun (file, stats) => if file = path then some stats else none

end Journal

end ReluAbstraction
