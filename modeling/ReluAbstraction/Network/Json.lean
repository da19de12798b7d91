import ReluAbstraction.Json
import ReluAbstraction.Network.Run

/-!
# States and reports as documents

The form in which the state of a network, the counts of a run and its report are written.
-/

namespace ReluAbstraction

/-- Writes a neuron. -/
def NeuronRef.toJson (n : NeuronRef) : Json := .object [("layer", .nat n.layer), ("index", .nat n.index)]

/-- Reads a neuron. Fields of other names are skipped over. -/
def NeuronRef.ofDocument {ν : Type} [Document ν] (v : ν) : Option NeuronRef := do
  let [layer, index] ← Document.record ["layer", "index"] v true | none
  return ⟨← Document.required Document.nat? layer, ← Document.required Document.nat? index⟩

/-- Writes the reductions of each category, in table order. -/
def Policy.toJson (p : Policy) : Json :=
  let row (f : Category → Reduction) : Json := .list (fun c => .string (f c).name) Category.all
  .object [("incoming", row p.incoming), ("outgoing", row p.outgoing), ("bias", row p.bias)]

/-- Writes event counters. -/
def Metrics.toJson (m : Metrics) : Json :=
  .object [("nodes_relocated", .nat m.nodesRelocated), ("nodes_split", .nat m.nodesSplit),
    ("split_pieces", .nat m.splitPieces), ("arnodes_created", .nat m.arnodesCreated),
    ("arnodes_destroyed", .nat m.arnodesDestroyed), ("merges", .nat m.merges), ("splits", .nat m.splits),
    ("abstract_solves", .nat m.abstractSolves), ("concrete_solves", .nat m.concreteSolves),
    ("live_arnodes", .nat m.liveArnodes)]

/-- Writes the counts of a solver call. -/
def SolveStats.toJson (s : SolveStats) : Json :=
  .object [("variables", .nat s.varCount), ("equations", .nat s.equations), ("relus", .nat s.relus),
    ("explored", .nat s.explored), ("pruned", .nat s.pruned), ("sat", .bool s.sat)]

/-- Writes a frontier. -/
def Frontier.toJson (f : Frontier) : Json :=
  .object [("preprocess", .option .nat f.preprocess), ("forward", .option .nat f.forward), ("full", .option .nat f.full)]

/-- Writes what an arnode stands for. -/
def ArNodeSummary.toJson (s : ArNodeSummary) : Json :=
  .object [("global_index", .nat s.globalIndex), ("category", .string s.category.longName),
    ("state", .string s.state.name), ("members", .list NeuronRef.toJson s.members)]

/-- Writes the arnodes of a layer. -/
def LayerSummary.toJson (s : LayerSummary) : Json :=
  .object [("index", .nat s.index), ("arnodes", .list ArNodeSummary.toJson s.arnodes)]

namespace Query

/-- Writes bounds, each under the number of its variable. -/
def boundsToJson (bounds : SortedMap VarId Float) : Json :=
  .object (bounds.toList.map fun (v, x) => (toString v, .float x))

/-- Writes an equation. -/
def equationToJson (e : Equation Float) : Json :=
  .object [("addends", .list (fun t => .object [("coefficient", .float t.coefficient), ("var", .nat t.var)]) e.addends),
    ("scalar", .float e.scalar)]

/-- Writes a query. -/
def toJson (q : Query Float) : Json :=
  .object [("variables", .nat q.varCount), ("lower", boundsToJson q.lower), ("upper", boundsToJson q.upper),
    ("equations", .list equationToJson q.equations),
    ("relus", .list (fun r => .object [("input", .nat r.input), ("output", .nat r.output)]) q.relus)]

end Query

/-- Writes a counterexample. -/
def Counterexample.toJson (c : Counterexample Float) : Json :=
  .object [("inputs", .list .float c.inputs), ("outputs", .list .float c.outputs)]

/-- Writes the answer of a run. -/
def RunOutcome.toJson : RunOutcome Float → Json
  | unsat => .object [("outcome", .string "unsat")]
  | sat counterexample => .object [("outcome", .string "sat"), ("counterexample", counterexample.toJson)]
  | inconclusive reason => .object [("outcome", .string "inconclusive"), ("reason", .string reason.text)]

/-- Writes a report. -/
def Report.toJson (r : Report Float) : Json :=
  .object [("outcome", r.outcome.toJson), ("merges", .nat r.merges), ("refinements", .nat r.refinements),
    ("solver_calls", .nat r.solverCalls)]

end ReluAbstraction
