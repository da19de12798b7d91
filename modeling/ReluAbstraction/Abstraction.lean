import ReluAbstraction.Encoding
import ReluAbstraction.Graph.Edit
import ReluAbstraction.Metrics
import ReluAbstraction.Reduction
import ReluAbstraction.Table

/-!
# Abstractions

The abstraction of a network: the tables of its layers, the graphs of its nodes and arnodes, the query of the arnodes, and
the reductions by which edges are folded. The operations on it are steps that keep what they have done when they fail.
-/

namespace ReluAbstraction

/-- Place of a layer in the network. -/
inductive LayerRole where
  /-- The network's inputs. -/
  | input
  /-- A layer followed by ReLUs. -/
  | hidden
  /-- The network's outputs. -/
  | output
deriving DecidableEq, Repr, Inhabited

/-- Tables of one layer. -/
structure Layer where
  /-- Place of the layer. -/
  role : LayerRole
  /-- Tables of nodes: one for each classified category, in which nodes stay, and one for unprocessed nodes. -/
  nodes : TableChain NodeId
  /-- Tables of arnodes, one for each classified category. -/
  arnodes : TableChain ArNodeId

namespace Layer

/-- A layer without nodes. -/
def empty (role : LayerRole) : Layer where
  role
  nodes := .empty (List.replicate 4 .appendOnly ++ [.deletable])
  arnodes := .empty (List.replicate 4 .deletable)

/-- Whether the layer is the first or the last. -/
def isBoundary (l : Layer) : Bool := l.role != .hidden

/-- Whether no node is unprocessed. -/
def isPreprocessed (l : Layer) : Bool := l.nodes.tableSize Category.unprocessed.index == 0

end Layer

/-- State of an abstraction. -/
structure Abstraction (α : Type) where
  /-- Layers from input to output. -/
  layers : List Layer
  /-- Nodes. -/
  nodes : Graph .node α (NodeData α)
  /-- Arnodes. -/
  arnodes : Graph .arnode α (ArNodeData α)
  /-- The query of the arnodes. -/
  encoding : Encoding α
  /-- Reductions by category. -/
  policy : Policy
  /-- What has been done. -/
  metrics : Metrics

namespace Abstraction

variable {α β : Type}

/-- An abstraction without nodes. -/
def empty (roles : List LayerRole) (limit : Option Nat) (policy : Policy) : Abstraction α :=
  { layers := roles.map Layer.empty, nodes := ∅, arnodes := ∅, encoding := .empty limit, policy, metrics := .zero }

/-- One layer. -/
def layer (a : Abstraction α) (l : Nat) : Except Error Layer :=
  match a.layers[l]? with
  | some layer => .ok layer
  | none => .error (.invalidArgument (.noLayer l))

/-- A live node. -/
def node (a : Abstraction α) (id : NodeId) : Except Error (Node α) := a.nodes.get id

/-- A live arnode. -/
def arnode (a : Abstraction α) (id : ArNodeId) : Except Error (ArNode α) := a.arnodes.get id

/-- The arnode that holds a node. -/
def ownerOf (a : Abstraction α) (id : NodeId) : Except Error ArNodeId := do
  match (← a.node id).data.owner with
  | some owner => return owner
  | none => throw (.unresolved id)

/-- Fails unless a place is in layer `l`. -/
def checkLayer (l : Nat) (loc : Location) : Except Error Unit :=
  if loc.layer = l then .ok () else .error (.invalidArgument (.otherLayer loc l))

/-- Number of a node in its layer. -/
def nodeIndex (a : Abstraction α) (l : Nat) (id : NodeId) : Except Error Nat := do
  let layer ← a.layer l
  let loc := (← a.node id).location
  checkLayer l loc
  layer.nodes.globalIndex loc.category.index loc.slot

/-- Number of an arnode in its layer. -/
def arnodeIndex (a : Abstraction α) (l : Nat) (id : ArNodeId) : Except Error Nat := do
  let layer ← a.layer l
  let loc := (← a.arnode id).location
  checkLayer l loc
  layer.arnodes.globalIndex loc.category.index loc.slot

/-- Runs a step on the nodes. -/
def onNodes (step : Step (Graph .node α (NodeData α)) β) : Step (Abstraction α) β :=
  Step.zoom (·.nodes) (fun a nodes => { a with nodes }) step

/-- Runs a step on the arnodes. -/
def onArnodes (step : Step (Graph .arnode α (ArNodeData α)) β) : Step (Abstraction α) β :=
  Step.zoom (·.arnodes) (fun a arnodes => { a with arnodes }) step

/-- Runs a step on the query of the arnodes. -/
def onEncoding (step : Step (Encoding α) β) : Step (Abstraction α) β :=
  Step.zoom (·.encoding) (fun a encoding => { a with encoding }) step

/-- Changes the query of the arnodes. -/
def recode (f : Encoding α → Encoding α) : Step (Abstraction α) Unit :=
  modify fun a => { a with encoding := f a.encoding }

/-- Changes one layer. -/
def setLayer (l : Nat) (layer : Layer) : Step (Abstraction α) Unit :=
  modify fun a => { a with layers := a.layers.set l layer }

/-- Counts an event. -/
def count (event : Event) : Step (Abstraction α) Unit :=
  modify fun a => { a with metrics := a.metrics.count event }

/-- Sets the arnode that holds a node. -/
def setOwner (owner : Option ArNodeId) (id : NodeId) : Step (Abstraction α) Unit :=
  onNodes (Graph.edit id fun v => .ok { v with data := { v.data with owner } })

end Abstraction

end ReluAbstraction
