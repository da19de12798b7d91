import ReluAbstraction.Graph.Vertex

/-!
# Editing a graph

An edge is stored at both of its ends, each under the place of the other. The edits below keep the two records in step:
linking and unlinking can change both, moving a vertex renames it at all of its neighbours, and destroying one removes it
there. An edit that fails half way keeps what it has done.
-/

namespace ReluAbstraction.Graph

variable {k : EntityKind} {α δ : Type}

/-- The live vertex under a handle. -/
def find (id : Handle k) : Step (Graph k α δ) (Vertex k α δ) := Step.read fun g => Arena.get g id

/-- Changes one vertex. -/
def edit (id : Handle k) (f : Vertex k α δ → Except Error (Vertex k α δ)) : Step (Graph k α δ) Unit :=
  Step.update fun g => Arena.modify g id f

/-- Inserts a vertex. -/
def add (v : Vertex k α δ) : Step (Graph k α δ) (Handle k) := do
  let (id, g) ← Step.read fun g => Arena.insert g v
  set g
  return id

/-- Adds the edge on side `d` of `source` to `target`, or changes its weight; on demand, at both ends. -/
def link (source : Handle k) (d : Direction) (target : Handle k) (weight : α) (bothEnds : Bool) :
    Step (Graph k α δ) Unit := do
  let targetKey := (← find target).location.key
  let sourceKey := (← find source).location.key
  edit source (·.editEdges d (·.add targetKey weight target))
  if bothEnds then
    edit target (·.editEdges d.reverse (·.add sourceKey weight source))

/-- Removes an edge from one end. -/
def dropEdge (id : Handle k) (d : Direction) (key : EdgeKey) : Step (Graph k α δ) (Edge α (Handle k)) := do
  let v ← find id
  let (edge, rest) ← Step.ofExcept ((v.edges d).remove key)
  edit id fun v => .ok (v.setEdges d rest)
  return edge

/-- Removes the edge on side `d` of `source` to `target` and gives its weight; on demand, at both ends. -/
def unlink (source : Handle k) (d : Direction) (target : Handle k) (bothEnds : Bool) :
    Step (Graph k α δ) α := do
  let targetKey := (← find target).location.key
  let sourceKey := (← find source).location.key
  let edge ← dropEdge source d targetKey
  if bothEnds then
    discard (dropEdge target d.reverse sourceKey)
  return edge.weight

/-- Moves a vertex within its layer and renames it at its neighbours, one after the other. Gives the place it had. -/
def relocateIn (order : Vertex.Listing k α δ) (id : Handle k) (category : Category) (slot : Slot) :
    Step (Graph k α δ) Location := do
  let v ← find id
  if !v.movable then throw (.immutable k id v.location)
  let place : Location := { v.location with category, slot }
  edit id fun v => .ok { v with location := place }
  (order.neighbors v).forM fun (d, neighbor) =>
    edit neighbor (·.editEdges d.reverse (·.moveEdge v.location.key place.key false))
  return v.location

/-- Moves a vertex within its layer. -/
def relocate (id : Handle k) (category : Category) (slot : Slot) : Step (Graph k α δ) Location :=
  relocateIn .bySlot id category slot

/-- Removes a vertex and its edges at its neighbours, one after the other. Gives the vertex and its neighbours with the side
they were on. -/
def destroyIn (order : Vertex.Listing k α δ) (id : Handle k) :
    Step (Graph k α δ) (Vertex k α δ × List (Direction × Handle k)) := do
  let v ← find id
  (order.neighbors v).forM fun (d, neighbor) => discard (dropEdge neighbor d.reverse v.location.key)
  let (removed, g) ← Step.read fun g => Arena.remove g id
  set g
  return (removed, order.neighbors v)

/-- Removes a vertex and its edges at its neighbours. -/
def destroy (id : Handle k) : Step (Graph k α δ) (Vertex k α δ × List (Direction × Handle k)) := destroyIn .bySlot id

end ReluAbstraction.Graph
