import ReluAbstraction.Feedforward
import ReluAbstraction.Property

/-!
# The concrete query

The query of a network as it stands. Inputs and outputs have one variable each; a hidden neuron has one before its ReLU
and one after it. Variables are numbered layer by layer and neuron by neuron. Every neuron that is not an input has the
equation `-1 · before + Σ weight · source = -bias`.
-/

namespace ReluAbstraction

namespace Feedforward

variable {α : Type}

/-- Whether a layer is followed by ReLUs. -/
def isHidden (net : Feedforward α) (l : Nat) : Bool := decide (1 ≤ l ∧ l + 1 < net.depth)

/-- Number of variables of each neuron of a layer. -/
def varsPerNeuron (net : Feedforward α) (l : Nat) : Nat := if net.isHidden l then 2 else 1

/-- Number of variables of the layers before layer `l`. -/
def varsBefore (net : Feedforward α) : Nat → Nat
  | 0 => 0
  | l + 1 => net.varsBefore l + net.varsPerNeuron l * net.width l

/-- Variable of a neuron before its ReLU. -/
def preVar (net : Feedforward α) (l neuron : Nat) : VarId :=
  net.varsBefore l + net.varsPerNeuron l * neuron

/-- Variable of a neuron after its ReLU, if it has one. -/
def postVar (net : Feedforward α) (l neuron : Nat) : VarId :=
  if net.isHidden l then net.preVar l neuron + 1 else net.preVar l neuron

variable [Scalar α]

/-- Weighted sources of a neuron, leaving out weights that are zero. -/
def sourceTerms (net : Feedforward α) (l neuron : Nat) : List (Addend α) :=
  (List.range (net.width (l - 1))).filterMap fun source =>
    let weight := net.weight l neuron source
    if weight == 0 then none else some ⟨weight, net.postVar (l - 1) source⟩

/-- Equation of a neuron that is not an input. -/
def neuronEquation (net : Feedforward α) (l neuron : Nat) : Equation α where
  addends := ⟨-1, net.preVar l neuron⟩ :: net.sourceTerms l neuron
  scalar := -net.bias l neuron

/-- The query of the network without a property. -/
def query (net : Feedforward α) : Query α where
  varCount := net.varsBefore net.depth
  lower := .ofList (net.inputs.zipIdx.map fun (range, input) => (net.preVar 0 input, range.low))
  upper := .ofList (net.inputs.zipIdx.map fun (range, input) => (net.preVar 0 input, range.high))
  equations := (List.range' 1 net.layers.length).flatMap fun l =>
    (List.range (net.width l)).map (net.neuronEquation l)
  relus := (List.range' 1 (net.layers.length - 1)).flatMap fun l =>
    (List.range (net.width l)).map fun neuron => ⟨net.preVar l neuron, net.postVar l neuron⟩

end Feedforward

/-- The query of a network under a property, with the variables of its inputs and outputs. -/
structure ConcreteEncoding (α : Type) where
  /-- The query, with the property's bound. -/
  query : Query α
  /-- Variables of the inputs. -/
  inputs : List VarId
  /-- Variables of the outputs. -/
  outputs : List VarId
deriving DecidableEq

namespace ConcreteEncoding

variable {α : Type}

/-- Encodes a network under a property. -/
def ofNetwork [Scalar α] (net : Feedforward α) (property : Property α) : ConcreteEncoding α :=
  let last := net.layers.length
  { query := net.query.setBound (net.postVar last property.output) property.bound
    inputs := (List.range (net.width 0)).map (net.postVar 0)
    outputs := (List.range (net.width last)).map (net.postVar last) }

/-- The query with every input fixed to a value. -/
def pinned (c : ConcreteEncoding α) (values : List α) : Query α :=
  (c.inputs.zip values).foldl (fun q (v, x) => (q.setLower v x).setUpper v x) c.query

end ConcreteEncoding

end ReluAbstraction
