import ReluAbstraction.Error
import ReluAbstraction.Scalar

/-!
# Feed-forward networks

A network is given by the ranges of its inputs and by dense layers. Hidden layers are followed by ReLUs, the last layer
is linear. Layer 0 is the inputs, so that layer `l + 1` is the dense layer number `l`.
-/

namespace ReluAbstraction

/-- Values that one input may take. -/
structure InputRange (α : Type) where
  /-- Lowest value. -/
  low : α
  /-- Highest value. -/
  high : α
deriving DecidableEq, Repr

namespace InputRange

variable {α : Type} [Scalar α]

/-- Whether no value is in the range. An end that differs from itself leaves the range empty. -/
def isEmpty (r : InputRange α) : Bool :=
  Scalar.isNaN r.low || Scalar.isNaN r.high || decide (r.high < r.low)

/-- Whether two ranges have equal ends. -/
def sameAs (r s : InputRange α) : Bool := r.low == s.low && r.high == s.high

end InputRange

/-- Weights and biases of one layer. -/
structure DenseLayer (α : Type) where
  /-- One row for each neuron, with one weight for each neuron of the layer before. -/
  weights : List (List α)
  /-- One bias for each neuron. -/
  biases : List α
deriving DecidableEq, Repr

namespace DenseLayer

variable {α : Type} [Scalar α]

/-- Fails unless layer number `index` has neurons, a bias for each of them and rows of the given width. -/
def check (l : DenseLayer α) (index width : Nat) : Except Error Unit := do
  if l.weights.isEmpty then throw (.invalidArgument (.emptyLayer index))
  if l.biases.length ≠ l.weights.length then
    throw (.invalidArgument (.biasCount index l.biases.length l.weights.length))
  if let some neuron := l.weights.findIdx? fun row => row.length ≠ width then
    throw (.invalidArgument (.weightCount index neuron width))

/-- Weighted sums of the neurons, biases included. -/
def affine (l : DenseLayer α) (values : List α) : List α :=
  List.zipWith (fun row bias => Scalar.dot row values + bias) l.weights l.biases

/-- Whether two layers have equal numbers. -/
def sameAs (l m : DenseLayer α) : Bool := l.weights == m.weights && l.biases == m.biases

end DenseLayer

/-- A feed-forward ReLU network. -/
structure Feedforward (α : Type) where
  /-- Ranges of the inputs. -/
  inputs : List (InputRange α)
  /-- Hidden layers followed by the output layer. -/
  layers : List (DenseLayer α)
deriving DecidableEq, Repr

namespace Feedforward

variable {α : Type}

/-- Number of layers, inputs included. -/
def depth (net : Feedforward α) : Nat := net.layers.length + 1

/-- Number of neurons in a layer; none in a layer that does not exist. -/
def width (net : Feedforward α) : Nat → Nat
  | 0 => net.inputs.length
  | l + 1 => match net.layers[l]? with
    | some layer => layer.weights.length
    | none => 0

/-- Number of neurons in each layer. -/
def shape (net : Feedforward α) : List Nat := (List.range net.depth).map net.width

variable [Scalar α]

/-- Bias of a neuron; zero for inputs and where none is given. -/
def bias (net : Feedforward α) (l neuron : Nat) : α :=
  match l with
  | 0 => 0
  | l + 1 => ((net.layers[l]?.bind fun layer => layer.biases[neuron]?)).getD 0

/-- Weight from neuron `source` of layer `l - 1` to neuron `target` of layer `l`; zero where none is given. -/
def weight (net : Feedforward α) (l target source : Nat) : α :=
  match l with
  | 0 => 0
  | l + 1 => (net.layers[l]?.bind fun layer => layer.weights[target]?.bind fun row => row[source]?).getD 0

/-- Range of an input; zero alone where none is given. -/
def bounds (net : Feedforward α) (input : Nat) : InputRange α := (net.inputs[input]?).getD ⟨0, 0⟩

/-- Fails unless the layers fit together, where the next layer has number `index` and reads `width` values. -/
def checkLayers : Nat → Nat → List (DenseLayer α) → Except Error Unit
  | _, _, [] => .ok ()
  | index, width, layer :: rest => do
    layer.check index width
    checkLayers (index + 1) layer.weights.length rest

/-- Fails unless there are inputs and layers, no input range is empty, and the layers fit together. -/
def validate (net : Feedforward α) : Except Error Unit := do
  if net.inputs.isEmpty then throw (.invalidArgument .noInputs)
  if net.layers.isEmpty then throw (.invalidArgument .noOutputLayer)
  if let some (range, input) := net.inputs.zipIdx.find? fun (range, _) => range.isEmpty then
    throw (.invalidArgument (.emptyRange input (Scalar.text range.low) (Scalar.text range.high)))
  checkLayers 1 net.inputs.length net.layers

/-- The network, if it is valid. -/
def validated (net : Feedforward α) : Except Error (Feedforward α) := do
  net.validate
  return net

/-- Values after the given layers, with ReLUs after all of them but the last. -/
def forward : List (DenseLayer α) → List α → List α
  | [], values => values
  | [layer], values => layer.affine values
  | layer :: next :: rest, values => forward (next :: rest) ((layer.affine values).map Scalar.rectify)

/-- Outputs of the network for the given inputs. -/
def evaluate (net : Feedforward α) (inputs : List α) : Except Error (List α) :=
  if inputs.length = net.inputs.length then .ok (forward net.layers inputs)
  else .error (.invalidArgument (.inputCount net.inputs.length inputs.length))

/-- Whether two networks have equal numbers. -/
def sameAs (net other : Feedforward α) : Bool :=
  net.inputs.length == other.inputs.length && (List.zipWith InputRange.sameAs net.inputs other.inputs).all id &&
  (net.layers.length == other.layers.length && (List.zipWith DenseLayer.sameAs net.layers other.layers).all id)

end Feedforward

end ReluAbstraction
