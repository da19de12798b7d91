import ReluAbstraction.Feedforward
import ReluAbstraction.Json.Printer
import ReluAbstraction.Json.Reader
import ReluAbstraction.Scalar.Double

/-!
# Networks as documents

A network is a record of its input ranges and layers. Reading one from a text also checks it.
-/

namespace ReluAbstraction

open Document

variable {ν : Type} [Document ν]

namespace InputRange

/-- Reads a range. -/
def ofDocument (v : ν) : Option (InputRange Float) := do
  let [low, high] ← record ["min", "max"] v | none
  return ⟨← required number? low, ← required number? high⟩

/-- Writes a range. -/
def toJson (r : InputRange Float) : Json := .object [("min", .float r.low), ("max", .float r.high)]

end InputRange

namespace DenseLayer

/-- Reads a layer. -/
def ofDocument (v : ν) : Option (DenseLayer Float) := do
  let [weights, biases] ← record ["weights", "biases"] v | none
  return ⟨← required (list (list number?)) weights, ← required (list number?) biases⟩

/-- Writes a layer. -/
def toJson (l : DenseLayer Float) : Json :=
  .object [("weights", .list (.list .float) l.weights), ("biases", .list .float l.biases)]

end DenseLayer

namespace Feedforward

/-- Reads a network, without checking it. -/
def ofDocument (v : ν) : Option (Feedforward Float) := do
  let [inputs, layers] ← record ["inputs", "layers"] v | none
  return ⟨← required (list InputRange.ofDocument) inputs, ← required (list DenseLayer.ofDocument) layers⟩

/-- Writes a network. -/
def toJson (net : Feedforward Float) : Json :=
  .object [("inputs", .list InputRange.toJson net.inputs), ("layers", .list DenseLayer.toJson net.layers)]

/-- Reads a network from a JSON text and checks it. -/
def ofText (text : String) : Except Error (Feedforward Float) :=
  match (Json.read? text).bind ofDocument with
  | some net => net.validated
  | none => .error .json

/-- JSON text of a network. -/
def text (net : Feedforward Float) : String := net.toJson.text

end Feedforward

end ReluAbstraction
