/-!
# Frontiers

The abstraction of a network is built in three stages, each of which runs from the output layer to the input layer: a
layer is preprocessed, then forward activated, then fully activated. A frontier holds the layer that each stage comes to
next. The input layer is never fully activated.
-/

namespace ReluAbstraction

/-- Next layer of each stage; none once the stage is through. -/
structure Frontier where
  /-- Next layer to preprocess. -/
  preprocess : Option Nat
  /-- Next layer to forward activate. -/
  forward : Option Nat
  /-- Next layer to fully activate. -/
  full : Option Nat
deriving DecidableEq, Repr, Inhabited

namespace Frontier

/-- The layer before `l`. -/
def before? : Nat → Option Nat
  | 0 => none
  | l + 1 => some l

/-- The layer before `l`, unless that is the input layer. -/
def interiorBefore? (l : Nat) : Option Nat := (before? l).filter fun next => 1 ≤ next

/-- No stage has run over any of the layers. -/
def start (layers : Nat) : Frontier := ⟨before? layers, before? layers, interiorBefore? layers⟩

/-- Whether a stage whose next layer is given has run over layer `l`. -/
def passed (next : Option Nat) (l : Nat) : Bool := next.all fun n => n < l

/-- Whether layer `l` is preprocessed. -/
def isPreprocessed (f : Frontier) (l : Nat) : Bool := passed f.preprocess l

/-- Whether layer `l` is forward activated. -/
def isForwardActivated (f : Frontier) (l : Nat) : Bool := passed f.forward l

/-- Whether layer `l` is fully activated. -/
def isFullyActivated (f : Frontier) (l : Nat) : Bool := decide (1 ≤ l) && passed f.full l

/-- Whether every stage is through. -/
def isComplete (f : Frontier) : Bool := f.preprocess.isNone && f.forward.isNone && f.full.isNone

/-- Whether the next layer to forward activate is ready for it. -/
def canForward (f : Frontier) : Bool := f.forward.any f.isPreprocessed

/-- Whether the next layer to fully activate is ready for it: the layer before it has to be forward activated. -/
def canFullyActivate (f : Frontier) : Bool := f.full.any fun l => 1 ≤ l && f.isForwardActivated (l - 1)

end Frontier

end ReluAbstraction
