/-!
# Activation states

An arnode first gets its outgoing abstract edges, then has its incoming ones confirmed. It never goes back.
-/

namespace ReluAbstraction

/-- How far an arnode is built. -/
inductive ActivationState where
  /-- No abstract edges yet. -/
  | notActivated
  /-- Outgoing edges are built. -/
  | forwardActivated
  /-- Incoming edges are confirmed too. -/
  | fullyActivated
deriving DecidableEq, Repr, Inhabited

namespace ActivationState

/-- Place of a state in the order of activation. -/
def rank : ActivationState → Nat
  | notActivated => 0
  | forwardActivated => 1
  | fullyActivated => 2

/-- Name of a state. -/
def name : ActivationState → String
  | notActivated => "not_activated"
  | forwardActivated => "forward_activated"
  | fullyActivated => "fully_activated"

/-- Whether the outgoing edges are built. -/
def isForward (s : ActivationState) : Bool := decide (1 ≤ s.rank)

end ActivationState

end ReluAbstraction
