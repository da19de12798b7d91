import ReluAbstraction.Json
import ReluAbstraction.Property

/-!
# Properties as documents

A property is a record of its kind, its output and its threshold.
-/

namespace ReluAbstraction.Property

/-- Kind of a property with the given goal. -/
def kind : Goal → String
  | .maximize => "output_at_least"
  | .minimize => "output_at_most"

/-- Reads a property. -/
def ofDocument {ν : Type} [Document ν] (v : ν) : Option (Property Float) := do
  let [given, output, threshold] ← Document.record ["kind", "output", "threshold"] v | none
  let name ← Document.required Document.text? given
  let goal ← [Goal.maximize, .minimize].find? fun goal => kind goal = name
  return ⟨goal, ← Document.required Document.nat? output, ← Document.required Document.number? threshold⟩

/-- Writes a property. -/
def toJson (p : Property Float) : Json :=
  .object [("kind", .string (kind p.goal)), ("output", .nat p.output), ("threshold", .float p.threshold)]

end ReluAbstraction.Property
