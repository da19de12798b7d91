import ReluAbstraction.Network.Advance
import ReluAbstraction.Network.Refinement
import ReluAbstraction.Network.Verify

/-!
# Abstraction refinement

A whole run: complete the abstraction, coarsen it by merges, then verify and split until the verdict is not spurious, no
split is left, or the budget is spent.
-/

namespace ReluAbstraction

/-- How many merges and splits a run may make. -/
structure Budget where
  /-- Number of merges. -/
  merges : Option Nat
  /-- Number of splits. -/
  splits : Option Nat
deriving DecidableEq, Repr, Inhabited

/-- Whether a budget is spent. -/
def Budget.spent (limit : Option Nat) (used : Nat) : Bool := limit.any fun n => n ≤ used

/-- Why a run ended without an answer. -/
inductive Inconclusive where
  /-- All splits allowed have been made. -/
  | budgetSpent (splits : Nat)
  /-- A counterexample is spurious though nothing is left to split. -/
  | fullyRefined
deriving DecidableEq, Repr

/-- Text of the reason. -/
def Inconclusive.text : Inconclusive → String
  | budgetSpent splits => s!"refinement budget of {splits} splits spent"
  | fullyRefined => "spurious counterexample on a fully refined abstraction"

/-- Answer of a run. -/
inductive RunOutcome (α : Type) where
  /-- The region is out of reach. -/
  | unsat
  /-- An input leads into the region. -/
  | sat (counterexample : Counterexample α)
  /-- No answer was found. -/
  | inconclusive (reason : Inconclusive)
deriving DecidableEq, Repr

/-- Answer of a run and what it took. -/
structure Report (α : Type) where
  /-- The answer. -/
  outcome : RunOutcome α
  /-- Merges made. -/
  merges : Nat
  /-- Splits made. -/
  refinements : Nat
  /-- Solver calls made. -/
  solverCalls : Nat
deriving DecidableEq, Repr

namespace Network

variable {α : Type} [Scalar α]

/-- Merges while there is a candidate, within a budget and at most `fuel` times. Gives the number of merges, of which
`merges` are made already. In each network, `order` tells for each source in which order its edges are taken. -/
def coarsenUpToIn (order : Network α → ArNodeId → EdgeSet.Listing α ArNodeId) (limit : Option Nat) :
    Nat → Nat → Step (Network α) Nat
  | 0, merges => pure merges
  | fuel + 1, merges => do
    if Budget.spent limit merges then return merges
    let n ← get
    match n.bestMergeIn (order n) with
    | .ok candidate =>
      discard (applyMerge candidate)
      coarsenUpToIn order limit fuel (merges + 1)
    | .error .noMergeCandidate => return merges
    | .error e => throw e

/-- Merges while there is a candidate, within a budget. Every merge leaves one arnode less, so their number bounds the
number of merges. -/
def coarsenIn (order : Network α → ArNodeId → EdgeSet.Listing α ArNodeId) (limit : Option Nat) : Step (Network α) Nat := do
  coarsenUpToIn order limit (← get).abstraction.arnodes.size 0

/-- Merges while there is a candidate, within a budget, where edges are taken by slot. -/
def coarsen (limit : Option Nat) : Step (Network α) Nat := coarsenIn (fun _ _ => .bySlot) limit

end Network

namespace Session

variable {σ α : Type} [Scalar α]

/-- Verifies and splits in turn, within a budget and at most `fuel` times. Gives the answer and the number of splits, of
which `refinements` are made already. -/
def refineUpTo (solver : Solver σ α) (options : SolveOptions) (limit : Option Nat) :
    Nat → Nat → Step (Session σ α) (RunOutcome α × Nat)
  | 0, refinements => pure (.inconclusive .fullyRefined, refinements)
  | fuel + 1, refinements => do
    match ← verify solver options with
    | .unsat => return (.unsat, refinements)
    | .sat counterexample => return (.sat counterexample, refinements)
    | .spurious =>
      if Budget.spent limit refinements then return (.inconclusive (.budgetSpent refinements), refinements)
      match (← get).network.bestSplit with
      | .ok candidate =>
        discard (onNetwork (Network.applySplit candidate))
        refineUpTo solver options limit fuel (refinements + 1)
      | .error .noSplitCandidate => return (.inconclusive .fullyRefined, refinements)
      | .error e => throw e

/-- Verifies and splits in turn, within a budget. Every split leaves one arnode more and no arnode is without nodes, so
the number of nodes bounds the number of splits. -/
def refine (solver : Solver σ α) (options : SolveOptions) (limit : Option Nat) :
    Step (Session σ α) (RunOutcome α × Nat) := do
  refineUpTo solver options limit ((← get).network.abstraction.nodes.size + 1) 0

/-- Completes the abstraction, coarsens it, and refines it until there is an answer. Where merges are chosen, edges are taken
in the given order. -/
def runIn (order : Network α → ArNodeId → EdgeSet.Listing α ArNodeId) (solver : Solver σ α) (options : SolveOptions)
    (budget : Budget) : Step (Session σ α) (Report α) := do
  let before := (← get).network.solverCalls
  onNetwork Network.complete
  let merges ← onNetwork (Network.coarsenIn order budget.merges)
  let (outcome, refinements) ← refine solver options budget.splits
  return { outcome, merges, refinements, solverCalls := (← get).network.solverCalls - before }

/-- A run in which edges are taken by slot. -/
def run (solver : Solver σ α) (options : SolveOptions) (budget : Budget) : Step (Session σ α) (Report α) :=
  runIn (fun _ _ => .bySlot) solver options budget

end Session

end ReluAbstraction
