import ReluAbstraction.Abstraction.Activation
import ReluAbstraction.Abstraction.Arnode

/-!
# Layers

Operations on one layer: its tables are kept in step with the nodes and arnodes that they list.
-/

namespace ReluAbstraction.Abstraction

variable {α : Type} [Scalar α]

/-- Makes a node in table `category` of layer `l`. -/
def insertNode (l : Nat) (category : Category) (movable : Bool) (bias : α) (origin : NeuronRef) :
    Step (Abstraction α) (NodeId × Location) := do
  let layer ← Step.read fun a => a.layer l
  let (slot, id, nodes) ← layer.nodes.insertWith category.index fun slot =>
    onNodes (Graph.add (Node.create ⟨l, category, slot⟩ movable bias origin))
  setLayer l { layer with nodes }
  return (id, ⟨l, category, slot⟩)

/-- Makes an unprocessed node in layer `l`. -/
def createNode (l : Nat) (bias : α) (origin : NeuronRef) : Step (Abstraction α) (NodeId × Location) :=
  insertNode l .unprocessed true bias origin

/-- Takes an entry out of a node table of layer `l`. -/
def unlistNode (l : Nat) (category : Category) (slot : Slot) : Step (Abstraction α) Unit := do
  let layer ← Step.read fun a => a.layer l
  let (_, nodes) ← Step.ofExcept (layer.nodes.remove category.index slot)
  setLayer l { layer with nodes }

/-- Wraps nodes of layer `l` and of one category into a new arnode. -/
def wrap (l : Nat) (nodes : List NodeId) : Step (Abstraction α) ArNodeId := do
  let layer ← Step.read fun a => a.layer l
  match nodes with
  | [] => throw (.invalidArgument .emptyWrap)
  | first :: _ =>
    let loc := (← Step.read fun a => a.node first).location
    Step.ofExcept (checkLayer l loc)
    if !loc.category.isCemented then throw (.notCemented first)
    let (_, id, arnodes) ← layer.arnodes.insertWith loc.category.index fun slot =>
      spawn ⟨l, loc.category, slot⟩ nodes layer.isBoundary
    setLayer l { layer with arnodes }
    return id

/-- Destroys an arnode of layer `l` and gives the nodes it held. -/
def unwrap (l : Nat) (id : ArNodeId) : Step (Abstraction α) (List NodeId) := do
  let layer ← Step.read fun a => a.layer l
  let loc := (← Step.read fun a => a.arnode id).location
  Step.ofExcept (checkLayer l loc)
  let members ← destroy id
  let (_, arnodes) ← Step.ofExcept (layer.arnodes.remove loc.category.index loc.slot)
  setLayer l { layer with arnodes }
  return members

/-- Arnodes of one table of layer `l`, in slot order. -/
def tableArnodes (a : Abstraction α) (l : Nat) (category : Category) : Except Error (List ArNodeId) := do
  return ((← a.layer l).arnodes.entries category.index).map (·.2)

/-- Forward activates the arnodes of one table. -/
def forwardActivateTable (l : Nat) (category : Category) : Step (Abstraction α) Unit := do
  (← Step.read fun a => a.tableArnodes l category).forM forwardActivate

/-- Fully activates the arnodes of one table with the incoming edges they have. -/
def confirmTable (l : Nat) (check : Bool) (category : Category) : Step (Abstraction α) Unit := do
  (← Step.read fun a => a.tableArnodes l category).forM (confirm · check)

/-- Forward activates a layer. -/
def forwardActivateLayer (l : Nat) : Step (Abstraction α) Unit :=
  Category.cemented.forM (forwardActivateTable l)

/-- Fully activates a layer with the incoming edges its arnodes have. -/
def confirmLayer (l : Nat) (check : Bool) : Step (Abstraction α) Unit :=
  Category.cemented.forM (confirmTable l check)

end ReluAbstraction.Abstraction
