import ReluAbstraction.Abstraction.Preprocess
import ReluAbstraction.Abstraction.Refine
import ReluAbstraction.ConcreteEncoding
import ReluAbstraction.Frontier

/-!
# Networks under verification

A network together with its abstraction, the query of the network as it stands, and the progress of the abstraction. A new
one holds an unprocessed node for every neuron and an edge for every weight that is not zero.
-/

namespace ReluAbstraction

/-- Choices made when a network is taken up. -/
structure Options where
  /-- How the biases of an arnode's members are folded. -/
  biasReduction : Reduction
  /-- Reductions to use in place of those for the property's goal. -/
  policy : Option Policy
  /-- Whether full activation checks that the sources are ready. -/
  checkActivation : Bool
  /-- Number of variables that the abstract query may use. -/
  variableLimit : Option Nat

namespace Options

/-- The usual choices. -/
def standard : Options := ⟨.sum, none, true, none⟩

instance : Inhabited Options := ⟨standard⟩

/-- Reductions for a goal. -/
def policyFor (o : Options) (goal : Goal) : Policy :=
  o.policy.getD ((Policy.forGoal goal).withBias o.biasReduction)

end Options

/-- A network under verification. -/
structure Network (α : Type) where
  /-- The abstraction. -/
  abstraction : Abstraction α
  /-- Whether full activation checks that the sources are ready. -/
  checkActivation : Bool
  /-- Progress of the abstraction. -/
  frontier : Frontier
  /-- The property. -/
  property : Property α
  /-- The query of the network as it stands. -/
  concrete : ConcreteEncoding α
  /-- Ranges of the inputs. -/
  inputs : List (InputRange α)
  /-- Number of solver calls made. -/
  solverCalls : Nat

/-- What an arnode stands for. -/
structure ArNodeSummary where
  /-- Number of the arnode in its layer. -/
  globalIndex : Nat
  /-- Table of the arnode. -/
  category : Category
  /-- How far the arnode is built. -/
  state : ActivationState
  /-- Neurons that its members come from, in order. -/
  members : List NeuronRef
deriving DecidableEq, Repr

/-- Arnodes of one layer. -/
structure LayerSummary where
  /-- Number of the layer. -/
  index : Nat
  /-- Arnodes, in table order. -/
  arnodes : List ArNodeSummary
deriving DecidableEq, Repr

namespace Network

variable {α β : Type}

section Build

variable [Scalar α]

/-- Place of layer `l` in a network of the given depth. -/
def roleOf (depth l : Nat) : LayerRole :=
  if l = 0 then .input else if l + 1 = depth then .output else .hidden

/-- Makes the nodes of a layer, one for each neuron. -/
def loadLayer (net : Feedforward α) (l : Nat) : Step (Abstraction α) (List NodeId) :=
  (List.range (net.width l)).mapM fun neuron => do
    return (← Abstraction.createNode l (net.bias l neuron) ⟨l, neuron⟩).1

/-- Makes the edges into layer `l` whose weight is not zero. -/
def loadEdges (net : Feedforward α) (l : Nat) (sources targets : List NodeId) : Step (Abstraction α) Unit :=
  targets.zipIdx.forM fun (target, j) =>
    sources.zipIdx.forM fun (source, i) =>
      let weight := net.weight l j i
      if weight == 0 then pure ()
      else Abstraction.onNodes (Graph.link source .outgoing target weight true)

/-- Makes the nodes of all layers, then their edges. -/
def load (net : Feedforward α) : Step (Abstraction α) Unit := do
  let layers ← (List.range net.depth).mapM (loadLayer net)
  ((layers.zip layers.tail).zipIdx 1).forM fun ((sources, targets), l) => loadEdges net l sources targets

/-- Takes up a network under a property. It has to have at least two layers, none of them empty, and the output that the
property names. -/
def build (net : Feedforward α) (property : Property α) (options : Options) : Except Error (Network α) := do
  if net.depth < 2 then throw (.invalidArgument (.tooFewLayers net.depth))
  let outputs := net.width net.layers.length
  if outputs ≤ property.output then throw (.invalidArgument (.propertyOutput property.output outputs))
  if let some l := (List.range net.depth).find? fun l => net.width l = 0 then
    throw (.invalidArgument (.emptyLayer l))
  let blank := Abstraction.empty ((List.range net.depth).map (roleOf net.depth)) options.variableLimit
    (options.policyFor property.goal)
  match (load net).outcome blank with
  | (.error e, _) => throw e
  | (.ok _, abstraction) =>
    return {
      abstraction
      checkActivation := options.checkActivation
      frontier := .start net.depth
      property
      concrete := .ofNetwork net property
      inputs := net.inputs
      solverCalls := 0 }

end Build

/-- Runs a step on the abstraction. -/
def onAbstraction (step : Step (Abstraction α) β) : Step (Network α) β :=
  Step.zoom (·.abstraction) (fun n abstraction => { n with abstraction }) step

/-- Arnodes of a layer, in table order. -/
def arnodesIn (n : Network α) (l : Nat) : Except Error (List ArNodeId) := do
  return (← n.abstraction.layer l).arnodes.handles

/-- What one arnode stands for. -/
def summarizeArnode (n : Network α) (l : Nat) (id : ArNodeId) : Except Error ArNodeSummary := do
  let arnode ← n.abstraction.arnode id
  let origins ← arnode.data.members.mapM fun member => return (← n.abstraction.node member).data.origin
  return {
    globalIndex := ← n.abstraction.arnodeIndex l id
    category := arnode.location.category
    state := arnode.data.state
    members := origins.mergeSort fun a b => (compare a b).isLE }

/-- What the arnodes stand for, layer by layer. -/
def summary (n : Network α) : Except Error (List LayerSummary) :=
  n.abstraction.layers.zipIdx.mapM fun (layer, l) => do
    return ⟨l, ← layer.arnodes.handles.mapM (n.summarizeArnode l)⟩

end Network

end ReluAbstraction
