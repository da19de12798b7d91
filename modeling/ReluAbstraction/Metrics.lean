/-!
# Metrics

Counts of what the engine has done. A counter holds 64 bits and starts over at zero when it is full.
-/

namespace ReluAbstraction

/-- Event counters. -/
structure Metrics where
  /-- Nodes moved out of the unprocessed table as they were. -/
  nodesRelocated : Nat
  /-- Nodes split by classification. -/
  nodesSplit : Nat
  /-- Nodes made by those splits. -/
  splitPieces : Nat
  /-- Arnodes made. -/
  arnodesCreated : Nat
  /-- Arnodes destroyed. -/
  arnodesDestroyed : Nat
  /-- Merges. -/
  merges : Nat
  /-- Splits of arnodes. -/
  splits : Nat
  /-- Abstract queries solved. -/
  abstractSolves : Nat
  /-- Concrete queries solved. -/
  concreteSolves : Nat
deriving DecidableEq, Repr

/-- Something that is counted. -/
inductive Event where
  /-- A node left the unprocessed table as it was. -/
  | nodeRelocated
  /-- A node was split into pieces. -/
  | nodeSplit (pieces : Nat)
  /-- An arnode was made. -/
  | arnodeCreated
  /-- An arnode was destroyed. -/
  | arnodeDestroyed
  /-- Two arnodes were merged. -/
  | mergeApplied
  /-- An arnode was split. -/
  | splitApplied
  /-- The solver was asked about the abstract query. -/
  | abstractSolve
  /-- The solver was asked about the concrete query. -/
  | concreteSolve
deriving DecidableEq, Repr

namespace Metrics

/-- Nothing has happened. -/
def zero : Metrics := ⟨0, 0, 0, 0, 0, 0, 0, 0, 0⟩

instance : Inhabited Metrics := ⟨zero⟩

/-- Number of values that a counter takes. -/
def range : Nat := 18446744073709551616

/-- A counter after `k` more. -/
def tally (counter k : Nat) : Nat := (counter + k) % range

/-- Counts an event. -/
def count (m : Metrics) : Event → Metrics
  | .nodeRelocated => { m with nodesRelocated := tally m.nodesRelocated 1 }
  | .nodeSplit pieces => { m with nodesSplit := tally m.nodesSplit 1, splitPieces := tally m.splitPieces pieces }
  | .arnodeCreated => { m with arnodesCreated := tally m.arnodesCreated 1 }
  | .arnodeDestroyed => { m with arnodesDestroyed := tally m.arnodesDestroyed 1 }
  | .mergeApplied => { m with merges := tally m.merges 1 }
  | .splitApplied => { m with splits := tally m.splits 1 }
  | .abstractSolve => { m with abstractSolves := tally m.abstractSolves 1 }
  | .concreteSolve => { m with concreteSolves := tally m.concreteSolves 1 }

/-- Arnodes alive according to the counters. -/
def liveArnodes (m : Metrics) : Nat := m.arnodesCreated - m.arnodesDestroyed

end Metrics

end ReluAbstraction
