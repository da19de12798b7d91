import ReluAbstraction.Abstraction.Layer

/-!
# Preprocessing

A node is classified by its outgoing edges. Where they ask for different categories the node is split: each piece takes
the edges of one category, and all pieces share the bias and the incoming edges. Input nodes, and nodes without outgoing
edges, count as raising the output and are not split. Every classified node is wrapped into an arnode of its own.
-/

namespace ReluAbstraction.Abstraction

variable {α : Type} [Scalar α]

/-- Category that each outgoing edge of a node of layer `l` asks for. -/
def classifyEdges (l : Nat) (id : NodeId) (node : Node α) :
    Except Error (List (Category × Edge α NodeId)) :=
  node.outgoing.toList.mapM fun (key, edge) =>
    match Category.classify? edge.weight key.category with
    | some category => .ok (category, edge)
    | none => .error (.successorUnprocessed id (l + 1))

/-- Moves a node as it is into the table of the first category. -/
def promote (l : Nat) (id : NodeId) : Step (Abstraction α) Unit := do
  let layer ← Step.read fun a => a.layer l
  let (slot, nodes) ← Step.ofExcept (layer.nodes.insert Category.posInc.index id)
  setLayer l { layer with nodes }
  let old ← onNodes (Graph.relocate id .posInc slot)
  unlistNode l .unprocessed old.slot
  onNodes (Graph.edit id fun v => .ok v.cement)
  count .nodeRelocated

/-- Makes the piece of a node that takes the given outgoing edges. -/
def makePiece (l : Nat) (node : Node α) (category : Category) (edges : List (Edge α NodeId)) :
    Step (Abstraction α) NodeId := do
  let (piece, _) ← insertNode l category false node.data.bias node.data.origin
  edges.forM fun edge => onNodes (Graph.link piece .outgoing edge.neighbor edge.weight true)
  node.incoming.toList.forM fun (_, edge) =>
    onNodes (Graph.link piece .incoming edge.neighbor edge.weight true)
  return piece

/-- Edges by category, leaving out categories without edges. -/
def buckets (classified : List (Category × Edge α NodeId)) : List (Category × List (Edge α NodeId)) :=
  Category.cemented.filterMap fun category =>
    match classified.filterMap fun (c, edge) => if c = category then some edge else none with
    | [] => none
    | edges => some (category, edges)

/-- Replaces a node by its pieces, one for each category that has edges. -/
def divide (l : Nat) (id : NodeId) (node : Node α) : Step (Abstraction α) (List NodeId) := do
  let classified ← Step.ofExcept (classifyEdges l id node)
  let pieces ← (buckets classified).mapM fun (category, edges) => makePiece l node category edges
  discard (onNodes (Graph.destroy id))
  unlistNode l .unprocessed node.location.slot
  count (.nodeSplit pieces.length)
  return pieces

/-- Classifies an unprocessed node of layer `l` and wraps what comes of it. Gives the new arnodes. -/
def classifyNode (l : Nat) (id : NodeId) : Step (Abstraction α) (List ArNodeId) := do
  let layer ← Step.read fun a => a.layer l
  let node ← Step.read fun a => a.node id
  Step.ofExcept (checkLayer l node.location)
  if node.location.category ≠ .unprocessed then
    throw (.invalidArgument (.alreadyClassified id node.location))
  if layer.role = .input ∨ node.outgoing.isEmpty then
    promote l id
    return [← wrap l [id]]
  else
    let pieces ← divide l id node
    pieces.mapM fun piece => wrap l [piece]

/-- Classifies every unprocessed node of layer `l`, in slot order. Gives the new arnodes. -/
def preprocess (l : Nat) : Step (Abstraction α) (List ArNodeId) := do
  let layer ← Step.read fun a => a.layer l
  let created ← (layer.nodes.entries Category.unprocessed.index).mapM fun (_, id) => classifyNode l id
  return created.flatten

end ReluAbstraction.Abstraction
