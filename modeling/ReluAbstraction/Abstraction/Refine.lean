import ReluAbstraction.Abstraction.Layer

/-!
# Merging and splitting

Merging replaces two arnodes by one over all of their nodes; splitting replaces an arnode by one for each cell of a
partition of its nodes. Everything that could go wrong is checked before the first arnode is destroyed.
-/

namespace ReluAbstraction.Abstraction

variable {α : Type} [Scalar α]

/-- Place of a fully activated arnode of layer `l`. -/
def requireFull (a : Abstraction α) (l : Nat) (id : ArNodeId) : Except Error Location := do
  let arnode ← a.arnode id
  checkLayer l arnode.location
  if arnode.data.state ≠ .fullyActivated then throw (.notFullyActivated id)
  return arnode.location

/-- Fails unless the variables of `created` hidden arnodes are free once `destroyed` ones have given theirs back. -/
def reserveVars (a : Abstraction α) (created destroyed : Nat) : Except Error Unit :=
  a.encoding.reserve (2 * created - 2 * destroyed)

/-- Makes a fully activated arnode over nodes of layer `l`. -/
def rebuild (l : Nat) (members : List NodeId) : Step (Abstraction α) ArNodeId := do
  let id ← wrap l members
  forwardActivate id
  fullyActivate id
  return id

/-- Merges two fully activated arnodes of one table. -/
def merge (l : Nat) (first second : ArNodeId) : Step (Abstraction α) ArNodeId := do
  let layer ← Step.read fun a => a.layer l
  if first = second then throw (.invalidArgument (.selfMerge first))
  if layer.isBoundary then throw (.invalidArgument (.boundaryMerge l))
  let firstLoc ← Step.read fun a => a.requireFull l first
  let secondLoc ← Step.read fun a => a.requireFull l second
  if firstLoc.category ≠ secondLoc.category then
    throw (.categoryMismatch (.arnodes first firstLoc second secondLoc))
  Step.read fun a => a.reserveVars 1 2
  let left ← unwrap l first
  let right ← unwrap l second
  let merged ← rebuild l (left ++ right)
  count .mergeApplied
  return merged

/-- Reads one more node of a partition, given the nodes read before. -/
def readCell (members seen : List NodeId) (node : NodeId) : Except PartitionFault (List NodeId) :=
  if node ∉ members then .error (.notMember node)
  else if node ∈ seen then .error (.repeated node)
  else .ok (node :: seen)

/-- Fails unless the cells are at least two, none of them is empty, and they hold each member once and nothing else. -/
def checkPartition (members : List NodeId) (cells : List (List NodeId)) : Except PartitionFault Unit := do
  if cells.length < 2 then throw (.tooFewCells cells.length)
  let seen ← cells.foldlM (fun seen cell => do
    if cell.isEmpty then throw .emptyCell
    cell.foldlM (readCell members) seen) []
  if seen.length ≠ members.length then throw (.uncovered seen.length members.length)

/-- Splits a fully activated arnode into one for each cell of a partition of its nodes. -/
def split (l : Nat) (id : ArNodeId) (cells : List (List NodeId)) : Step (Abstraction α) (List ArNodeId) := do
  let layer ← Step.read fun a => a.layer l
  if layer.isBoundary then throw (.invalidArgument (.boundarySplit l))
  discard (Step.read fun a => a.requireFull l id)
  let members := (← Step.read fun a => a.arnode id).data.members
  Step.ofExcept ((checkPartition members cells).mapError Error.invalidPartition)
  Step.read fun a => a.reserveVars cells.length 1
  discard (unwrap l id)
  let parts ← cells.mapM (rebuild l)
  count .splitApplied
  return parts

end ReluAbstraction.Abstraction
