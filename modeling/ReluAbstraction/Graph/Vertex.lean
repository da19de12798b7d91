import ReluAbstraction.Arena
import ReluAbstraction.EdgeSet
import ReluAbstraction.Query

/-!
# Vertices

Nodes and arnodes are vertices of two graphs of the same shape: a place, edges on both sides, and what the vertex stands
for. A node is a neuron, or the part of one that feeds one category; an arnode is a group of nodes that the solver sees
as a single neuron.
-/

namespace ReluAbstraction

/-- A vertex of the graph of entities of kind `k`, holding data of type `δ`. -/
structure Vertex (k : EntityKind) (α δ : Type) where
  /-- Where the vertex sits. -/
  location : Location
  /-- Whether the vertex may still move. -/
  movable : Bool
  /-- Edges from the layer before. -/
  incoming : EdgeSet α (Handle k)
  /-- Edges into the layer after. -/
  outgoing : EdgeSet α (Handle k)
  /-- What the vertex stands for. -/
  data : δ
deriving DecidableEq

namespace Vertex

variable {k : EntityKind} {α δ : Type}

/-- Edges on one side. -/
def edges (v : Vertex k α δ) : Direction → EdgeSet α (Handle k)
  | .incoming => v.incoming
  | .outgoing => v.outgoing

/-- Replaces the edges on one side. -/
def setEdges (v : Vertex k α δ) (d : Direction) (edges : EdgeSet α (Handle k)) : Vertex k α δ :=
  match d with
  | .incoming => { v with incoming := edges }
  | .outgoing => { v with outgoing := edges }

/-- Changes the edges on one side, or fails. -/
def editEdges (v : Vertex k α δ) (d : Direction)
    (f : EdgeSet α (Handle k) → Except Error (EdgeSet α (Handle k))) : Except Error (Vertex k α δ) := do
  return v.setEdges d (← f (v.edges d))

/-- Neighbours with the side they are on, those of incoming edges first. -/
def neighbors (v : Vertex k α δ) : List (Direction × Handle k) :=
  v.incoming.neighbors.map (Direction.incoming, ·) ++ v.outgoing.neighbors.map (Direction.outgoing, ·)

/-- An order in which the neighbours of a vertex are taken. -/
structure Listing (k : EntityKind) (α δ : Type) where
  /-- The neighbours with the side they are on. -/
  neighbors : Vertex k α δ → List (Direction × Handle k)
  /-- Each of them comes as often as there are edges to it. -/
  perm : ∀ v, (neighbors v).Perm v.neighbors

/-- Incoming edges first, those of a side by table and slot. -/
def Listing.bySlot : Listing k α δ := ⟨Vertex.neighbors, fun _ => .refl _⟩

/-- Fixes the place of the vertex for good. -/
def cement (v : Vertex k α δ) : Vertex k α δ := { v with movable := false }

end Vertex

/-- Vertices of one kind. -/
abbrev Graph (k : EntityKind) (α δ : Type) := Arena k (Vertex k α δ)

/-- What a node stands for. -/
structure NodeData (α : Type) where
  /-- Bias of the neuron. -/
  bias : α
  /-- The neuron. -/
  origin : NeuronRef
  /-- The arnode that holds the node. -/
  owner : Option ArNodeId
deriving DecidableEq, Repr

/-- A node. -/
abbrev Node (α : Type) := Vertex .node α (NodeData α)

/-- A node without edges and owner. -/
def Node.create {α : Type} (location : Location) (movable : Bool) (bias : α) (origin : NeuronRef) : Node α :=
  ⟨location, movable, .empty 5, .empty 5, ⟨bias, origin, none⟩⟩

/-- Solver variables of an arnode. In the input and output layers both are the same; in between a ReLU leads from the
first to the second. -/
structure VarPair where
  /-- Variable that the arnode's equation defines. -/
  incoming : VarId
  /-- Variable that the layer after reads. -/
  outgoing : VarId
deriving DecidableEq, Repr

/-- Whether both variables are the same. -/
def VarPair.isBoundary (p : VarPair) : Bool := p.incoming == p.outgoing

/-- What an arnode stands for. -/
structure ArNodeData (α : Type) where
  /-- The nodes it holds. -/
  members : List NodeId
  /-- How far it is built. -/
  state : ActivationState
  /-- Its solver variables. -/
  vars : VarPair
  /-- Reduced bias of its nodes. -/
  bias : α
  /-- Its equation in the query. -/
  equation : Option (Equation α)
deriving DecidableEq, Repr

/-- An arnode. -/
abbrev ArNode (α : Type) := Vertex .arnode α (ArNodeData α)

namespace ArNode

variable {α : Type}

/-- An arnode without edges. Its place is fixed. -/
def create (location : Location) (members : List NodeId) (vars : VarPair) (bias : α) : ArNode α :=
  ⟨location, false, .empty 4, .empty 4, ⟨members, .notActivated, vars, bias, none⟩⟩

/-- The equation `-1 · incoming + Σ weight · source = -bias` over the incoming edges, with `outgoingVar` giving the
variable of each source; none without incoming edges. -/
def buildEquation [Scalar α] (a : ArNode α) (outgoingVar : ArNodeId → Except Error VarId) :
    Except Error (Option (Equation α)) := do
  if a.incoming.isEmpty then return none
  let terms ← a.incoming.toList.mapM fun (_, e) => do
    return (⟨e.weight, ← outgoingVar e.neighbor⟩ : Addend α)
  return some ⟨⟨-1, a.data.vars.incoming⟩ :: terms, -a.data.bias⟩

end ArNode

end ReluAbstraction
