import ReluAbstraction.Solver
import ReluAbstraction.Simplex.Tableau

/-!
# Solving by case splits

A ReLU is either active, where its output equals its input, or inactive, where its output is zero. The solver decides
ReLUs one after another and checks each partial choice for a feasible point. A ReLU not yet decided only has to keep its
output at or above both zero and its input; when the point found misses it, the search tries both of its phases.

The feasibility check is a parameter of the search; `Solver.caseSplit` runs it with the simplex.
-/

namespace ReluAbstraction

/-- The two linear pieces of a ReLU. -/
inductive Phase where
  /-- The output equals the input. -/
  | active
  /-- The output is zero. -/
  | inactive
deriving DecidableEq, Repr

/-- A ReLU between columns of a linear program. -/
structure ReluColumns (n : Nat) where
  /-- Column before the ReLU. -/
  input : Fin n
  /-- Column after the ReLU. -/
  output : Fin n
deriving DecidableEq, Repr

namespace CaseSplit

/-- Column of a declared variable. -/
def column (n : Nat) (v : VarId) : Except Error (Fin n) :=
  if h : v < n then .ok ⟨v, h⟩ else .error (.solver (.undeclared v))

variable {α : Type} [Scalar α] {n : Nat}

/-- Bounds and equations of a query. -/
def linearPart (q : Query α) : Except Error (LinearProgram α q.varCount) := do
  let rows ← q.equations.mapM fun e => do
    let terms ← e.addends.mapM fun t => do
      return (← column q.varCount t.var, t.coefficient)
    return ⟨terms, some e.scalar, some e.scalar⟩
  return {
    lower := Vector.ofFn fun i => (q.lower.get? i).bind (LinearProgram.raiseBound none)
    upper := Vector.ofFn fun i => (q.upper.get? i).bind (LinearProgram.lowerBound none)
    rows }

/-- ReLU constraints of a query. -/
def reluPart (q : Query α) : Except Error (List (ReluColumns q.varCount)) :=
  q.relus.mapM fun r => do
    return ⟨← column q.varCount r.input, ← column q.varCount r.output⟩

/-- Adds what a ReLU in the given phase, or an undecided one, asks for. -/
def restrict (p : LinearProgram α n) (relu : ReluColumns n) : Option Phase → LinearProgram α n
  | some .active =>
    (p.tightenLower relu.input 0).addRow [(relu.output, 1), (relu.input, -1)] (some 0) (some 0)
  | some .inactive =>
    ((p.tightenUpper relu.input 0).tightenLower relu.output 0).tightenUpper relu.output 0
  | none =>
    (p.tightenLower relu.output 0).addRow [(relu.output, 1), (relu.input, -1)] (some 0) none

/-- The linear program of a partial choice of phases. -/
def withPhases (base : LinearProgram α n) (relus : List (ReluColumns n)) (phases : List (Option Phase)) :
    LinearProgram α n :=
  (relus.zip phases).foldl (fun p (relu, phase) => restrict p relu phase) base

/-- Whether a point meets a ReLU within the tolerance. -/
def holds (tolerance : Tolerance α) (point : Vector α n) (relu : ReluColumns n) : Bool :=
  decide (Scalar.magnitude (point.get relu.output - Scalar.rectify (point.get relu.input)) ≤ tolerance.relu)

/-- The first undecided ReLU that a point misses. -/
def violated? (tolerance : Tolerance α) (relus : List (ReluColumns n)) (phases : List (Option Phase))
    (point : Vector α n) : Option Nat :=
  (relus.zip phases).findIdx? fun (relu, phase) => phase.isNone && !holds tolerance point relu

/-- Search nodes seen so far. -/
structure Tally where
  /-- Search nodes visited. -/
  explored : Nat
  /-- Search nodes without a feasible point. -/
  pruned : Nat
deriving DecidableEq, Repr

/-- A decision procedure for linear programs: a point, or none. -/
abbrev Feasibility (α : Type) (n : Nat) := LinearProgram α n → Except Error (Option (Vector α n))

/-- Searches below a partial choice of phases, the active phase of a missed ReLU first. Each level of the search decides
one more ReLU, so there are at most as many levels below the first as there are undecided ones. -/
def explore (tolerance : Tolerance α) (feasible : Feasibility α n) (base : LinearProgram α n)
    (relus : List (ReluColumns n)) :
    Nat → List (Option Phase) → Tally → Except Error (Option (Vector α n) × Tally)
  | 0, _, tally => return (none, tally)
  | levels + 1, phases, tally => do
    let tally := { tally with explored := tally.explored + 1 }
    match ← feasible (withPhases base relus phases) with
    | none => return (none, { tally with pruned := tally.pruned + 1 })
    | some point =>
      match violated? tolerance relus phases point with
      | none => return (some point, tally)
      | some i =>
        let (found, tally) ←
          explore tolerance feasible base relus levels (phases.set i (some .active)) tally
        if found.isSome then return (found, tally)
        explore tolerance feasible base relus levels (phases.set i (some .inactive)) tally

/-- The point as values of the variables. -/
def assignmentOf (point : Vector α n) : Assignment α :=
  .ofList ((List.finRange n).map fun i => (i.val, point.get i))

/-- Answers a query. A time limit of zero is spent before the first search node; the search itself reads no clock. -/
def answer (tolerance : Tolerance α) (feasible : (n : Nat) → Feasibility α n) (q : Query α)
    (timeout : Option Nat) : Except Error (SolveOutcome α) := do
  let base ← linearPart q
  if timeout = some 0 then throw .solverTimeout
  let relus ← reluPart q
  let (point, tally) ←
    explore tolerance (feasible q.varCount) base relus (relus.length + 1) (relus.map fun _ => none) ⟨0, 0⟩
  let assignment := match point with
    | some point => assignmentOf point
    | none => .empty
  let stats : SolveStats :=
    { varCount := q.varCount
      equations := q.equations.length
      relus := q.relus.length
      explored := tally.explored
      pruned := tally.pruned
      sat := !assignment.isEmpty }
  return { assignment, stats }

/-- What the solver keeps from call to call. -/
structure State where
  /-- Counts of the last successful call. -/
  last : Option SolveStats
  /-- Records written. -/
  journal : Journal
deriving DecidableEq, Repr

end CaseSplit

/-- The case-splitting solver over a given feasibility check. A call that asks for a record counts as successful only once
the record is written. -/
def Solver.caseSplitWith {α : Type} [Scalar α] (tolerance : Tolerance α)
    (feasible : (n : Nat) → CaseSplit.Feasibility α n) : Solver CaseSplit.State α where
  solve q options := do
    let outcome ← Step.ofExcept (CaseSplit.answer tolerance feasible q options.timeout)
    if let some path := options.logPath then
      let journal ← Step.ofExcept ((← get).journal.append path outcome.stats)
      modify ({ · with journal })
    modify ({ · with last := some outcome.stats })
    return outcome

/-- The case-splitting solver over the simplex. -/
def Solver.caseSplit {α : Type} [Scalar α] : Solver CaseSplit.State α :=
  .caseSplitWith .standard fun _ => LinearProgram.solve .standard

end ReluAbstraction
