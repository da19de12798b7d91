import ReluAbstraction.Network
import ReluAbstraction.Solver

/-!
# Verification

The abstract query is solved first. If it has no solution, the property's region is out of reach. Otherwise the inputs of
the solution are tried on the network as it stands: either they lead into the region, or the solution was an artefact of
the abstraction.
-/

namespace ReluAbstraction

/-- Inputs that lead into the property's region, with the outputs that they give. -/
structure Counterexample (α : Type) where
  /-- Values of the inputs. -/
  inputs : List α
  /-- Values of the outputs. -/
  outputs : List α
deriving DecidableEq, Repr

/-- What a verification found. -/
inductive Verdict (α : Type) where
  /-- The network reaches the region. -/
  | sat (counterexample : Counterexample α)
  /-- Not even the abstraction reaches the region. -/
  | unsat
  /-- The abstraction reaches the region, the network does not for the same inputs. -/
  | spurious
deriving DecidableEq, Repr

/-- A network and the state of the solver in use. -/
structure Session (σ α : Type) where
  /-- The network. -/
  network : Network α
  /-- State of the solver. -/
  solver : σ

namespace Network

variable {α : Type} [Scalar α]

/-- The abstract query, brought up to date. -/
def abstractQuery : Step (Network α) (Query α) := do
  discard (onAbstraction Abstraction.refreshEquations)
  onAbstraction Abstraction.preparedQuery

/-- Counts a solver call. -/
def countCall (event : Event) : Step (Network α) Unit := do
  onAbstraction (Abstraction.count event)
  modify fun n => { n with solverCalls := n.solverCalls + 1 }

/-- Inputs of the network for values of the abstract variables; an input without a value is zero. -/
def inputsOf (n : Network α) (values : Assignment α) : Except Error (List α) := do
  (← n.arnodesIn 0).foldlM (fun inputs id => do
    let arnode ← n.abstraction.arnode id
    arnode.data.members.foldlM (fun inputs member => do
      let neuron := (← n.abstraction.node member).data.origin.index
      return inputs.set neuron (values.value arnode.data.vars.incoming)) inputs)
    (List.replicate n.concrete.inputs.length 0)

end Network

namespace Session

variable {σ α β : Type} [Scalar α]

/-- Runs a step on the network. -/
def onNetwork (step : Step (Network α) β) : Step (Session σ α) β :=
  Step.zoom (·.network) (fun s network => { s with network }) step

/-- Runs a step on the solver's state. -/
def onSolver (step : Step σ β) : Step (Session σ α) β :=
  Step.zoom (·.solver) (fun s solver => { s with solver }) step

/-- Asks the solver, counting the call. -/
def ask (solver : Solver σ α) (options : SolveOptions) (event : Event) (q : Query α) :
    Step (Session σ α) (SolveOutcome α) := do
  onNetwork (Network.countCall event)
  onSolver (solver.solve q options)

/-- Verifies the property on the current abstraction, which has to be complete. -/
def verify (solver : Solver σ α) (options : SolveOptions) : Step (Session σ α) (Verdict α) := do
  if !(← get).network.frontier.isComplete then throw (.frontierViolation .incomplete)
  let abstracted ← ask solver options .abstractSolve (← onNetwork Network.abstractQuery)
  if !abstracted.isSat then return .unsat
  let inputs ← Step.read fun s => s.network.inputsOf abstracted.assignment
  let concrete := (← get).network.concrete
  let replay ← ask solver options .concreteSolve (concrete.pinned inputs)
  if !replay.isSat then return .spurious
  return .sat ⟨inputs, concrete.outputs.map replay.assignment.value⟩

end Session

end ReluAbstraction
